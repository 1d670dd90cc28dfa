/-!
Character classes of the source text and its length in UTF-8 bytes.

Digits and letters are the ASCII ones, so core's `Char.isDigit` and `Char.isAlpha` serve as they
are. What stands between tokens is wider than ASCII and has its table here.
-/

namespace CallForms

/-- Code point ranges, ends included, of the Unicode property `White_Space`. -/
def whiteSpaceRanges : List (Nat × Nat) :=
  [(0x09, 0x0D), (0x20, 0x20), (0x85, 0x85), (0xA0, 0xA0), (0x1680, 0x1680), (0x2000, 0x200A),
    (0x2028, 0x2029), (0x202F, 0x202F), (0x205F, 0x205F), (0x3000, 0x3000)]

def isWhiteSpace (ch : Char) : Bool :=
  whiteSpaceRanges.any fun range => range.1 ≤ ch.toNat && ch.toNat ≤ range.2

/-- A separator is white space other than U+0085 NEXT LINE, or the byte order mark U+FEFF. -/
def isSeparator (ch : Char) : Bool :=
  (isWhiteSpace ch && ch.toNat != 0x85) || ch.toNat == 0xFEFF

/-- The number of bytes that a text takes in UTF-8. -/
def byteLength : List Char → Nat
  | [] => 0
  | ch :: text => ch.utf8Size + byteLength text

@[simp] theorem byteLength_nil : byteLength [] = 0 := rfl

@[simp] theorem byteLength_cons (ch : Char) (text : List Char) :
    byteLength (ch :: text) = ch.utf8Size + byteLength text := rfl

@[simp] theorem byteLength_append (left right : List Char) :
    byteLength (left ++ right) = byteLength left + byteLength right := by
  induction left with
  | nil => simp
  | cons ch left ih => simp [ih, Nat.add_assoc]

@[simp] theorem byteLength_reverse (text : List Char) :
    byteLength text.reverse = byteLength text := by
  induction text with
  | nil => rfl
  | cons ch text ih => simp [ih, Nat.add_comm]

/-- The characters that lie wholly in the first `bytes` bytes of a text. -/
def takeBytes : (bytes : Nat) → List Char → List Char
  | _, [] => []
  | bytes, ch :: rest =>
      if ch.utf8Size ≤ bytes then ch :: takeBytes (bytes - ch.utf8Size) rest else []

def firstBytes (bytes : Nat) (text : String) : String :=
  String.ofList (takeBytes bytes text.toList)

theorem takeBytes_byteLength_append (left right : List Char) :
    takeBytes (byteLength left) (left ++ right) = left := by
  induction left with
  | nil =>
      cases right with
      | nil => rfl
      | cons ch right =>
          have hpos := ch.utf8Size_pos
          simp only [byteLength_nil, List.nil_append, takeBytes]
          rw [if_neg (by omega)]
  | cons ch left ih => simp [takeBytes, ih]

end CallForms

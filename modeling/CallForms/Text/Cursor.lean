import CallForms.Text.Character

/-!
A cursor moves forward through a text and cuts pieces out of the part it has passed.

Positions are byte offsets. A cut that starts past the cursor or inside a character is refused,
and `Cursor.munch` makes the one kind of cut that never is: a run of characters the cursor just
passed.
-/

namespace CallForms

structure Cursor where
  /-- The characters passed so far, the nearest one first. -/
  passed : List Char
  rest : List Char
  /-- The byte offset of the cursor, kept so that it need not be added up again. -/
  offset : Nat
  offset_eq : offset = byteLength passed

namespace Cursor

def ofText (text : String) : Cursor where
  passed := []
  rest := text.toList
  offset := 0
  offset_eq := rfl

def peek? (c : Cursor) : Option Char :=
  c.rest.head?

def atEnd (c : Cursor) : Bool :=
  c.rest.isEmpty

/-- Passes the character that `peek?` shows; at the end of the text the cursor stays. -/
def advance (c : Cursor) : Cursor :=
  match c.rest with
  | [] => c
  | ch :: rest =>
      ⟨ch :: c.passed, rest, c.offset + ch.utf8Size, by simp [c.offset_eq, Nat.add_comm]⟩

/-- Passes every character up to the first one that fails `p`. -/
def skipWhile (p : Char → Bool) (c : Cursor) : Cursor where
  passed := (c.rest.takeWhile p).reverse ++ c.passed
  rest := c.rest.dropWhile p
  offset := c.offset + byteLength (c.rest.takeWhile p)
  offset_eq := by simp [c.offset_eq, Nat.add_comm]

/-- The last `size` bytes of the text that is given backwards, in front of `taken`; `none` where the
count ends inside a character or before the text begins. -/
def takeBytesBack : (size : Nat) → (backwards taken : List Char) → Option (List Char)
  | 0, _, taken => some taken
  | _ + 1, [], _ => none
  | size + 1, ch :: before, taken =>
      if ch.utf8Size ≤ size + 1 then
        takeBytesBack (size + 1 - ch.utf8Size) before (ch :: taken)
      else
        none

/-- The text from byte `start` up to the cursor. -/
def textFrom? (c : Cursor) (start : Nat) : Option String :=
  if start ≤ c.offset then
    (takeBytesBack (c.offset - start) c.passed []).map String.ofList
  else
    none

theorem takeBytesBack_append (run before taken : List Char) :
    takeBytesBack (byteLength run) (run ++ before) taken = some (run.reverse ++ taken) := by
  induction run generalizing taken with
  | nil => simp [takeBytesBack]
  | cons ch rest ih =>
      have hpos := ch.utf8Size_pos
      obtain ⟨size, hsize⟩ : ∃ size, ch.utf8Size + byteLength rest = size + 1 :=
        ⟨ch.utf8Size + byteLength rest - 1, by omega⟩
      have hle : ch.utf8Size ≤ size + 1 := by omega
      have hsub : size + 1 - ch.utf8Size = byteLength rest := by omega
      simp [hsize, takeBytesBack, hle, hsub, ih]

theorem textFrom?_skipWhile (p : Char → Bool) (c : Cursor) :
    (c.skipWhile p).textFrom? c.offset = some (String.ofList (c.rest.takeWhile p)) := by
  have h := takeBytesBack_append (c.rest.takeWhile p).reverse c.passed []
  simp only [byteLength_reverse, List.reverse_reverse, List.append_nil] at h
  simp [textFrom?, skipWhile, h]

/-- The run of characters ahead that satisfy `p`, and the cursor behind it. -/
def munch (p : Char → Bool) (c : Cursor) : String × Cursor :=
  let behind := c.skipWhile p
  ((behind.textFrom? c.offset).get (by simp [behind, textFrom?_skipWhile]), behind)

@[simp] theorem munch_fst (p : Char → Bool) (c : Cursor) :
    (c.munch p).1 = String.ofList (c.rest.takeWhile p) := by
  simp [munch, textFrom?_skipWhile]

@[simp] theorem munch_snd (p : Char → Bool) (c : Cursor) :
    (c.munch p).2 = c.skipWhile p := rfl

theorem length_rest_skipWhile_le (p : Char → Bool) (c : Cursor) :
    (c.skipWhile p).rest.length ≤ c.rest.length :=
  (List.dropWhile_suffix p).length_le

theorem length_rest_advance_lt {c : Cursor} {ch : Char} (h : c.peek? = some ch) :
    c.advance.rest.length < c.rest.length := by
  unfold peek? at h
  unfold advance
  split <;> simp_all

theorem length_rest_skipWhile_lt {p : Char → Bool} {c : Cursor} {ch : Char}
    (h : c.peek? = some ch) (hp : p ch = true) :
    (c.skipWhile p).rest.length < c.rest.length := by
  obtain ⟨rest, hrest⟩ : ∃ rest, c.rest = ch :: rest := by
    unfold peek? at h
    cases hc : c.rest with
    | nil => simp [hc] at h
    | cons head rest => exact ⟨rest, by simp_all⟩
  have hdrop : (rest.dropWhile p).length ≤ rest.length := (List.dropWhile_suffix p).length_le
  simp only [skipWhile, hrest, List.dropWhile_cons, hp, if_true, List.length_cons]
  omega

end Cursor

inductive CursorOp where
  | peek
  | advance
  | skipWhile (p : Char → Bool)
  | textFrom (start : Nat)

inductive CursorAnswer where
  | char (ch : Option Char)
  | nothing
  /-- The text that was asked for, if it begins and ends between characters. -/
  | text (content : Option String)

namespace CursorOp

def answer (c : Cursor) : CursorOp → CursorAnswer
  | peek => .char c.peek?
  | advance => .char c.peek?
  | skipWhile _ => .nothing
  | textFrom start => .text (c.textFrom? start)

/-- Only `advance` and `skipWhile` move the cursor. -/
def apply (c : Cursor) : CursorOp → Cursor
  | advance => c.advance
  | skipWhile p => c.skipWhile p
  | peek | textFrom _ => c

end CursorOp

/-- Every call's answer together with the cursor after it. -/
def Cursor.run (c : Cursor) : List CursorOp → List (CursorAnswer × Cursor)
  | [] => []
  | op :: ops => (op.answer c, op.apply c) :: (op.apply c).run ops

end CallForms

import CallForms.Text.Cursor
import CallForms.Token.Basic

/-!
Scanning a text into tokens.

Separators are skipped, names and numbers are as long as they can be, and a string runs to the
next quote, whatever stands between. A scan keeps the tokens it found before it failed.
-/

namespace CallForms

inductive LexError where
  | unexpectedCharacter (ch : Char) (offset : Nat)
  /-- No quote closes the string whose opening quote stands at `offset`. -/
  | unterminatedString (offset : Nat)
  deriving DecidableEq, Repr

def LexError.message : LexError → String
  | unexpectedCharacter ch offset =>
      "unexpected character '" ++ ch.toString ++ "' at byte " ++ toString offset
  | unterminatedString offset =>
      "unterminated string literal starting at byte " ++ toString offset

/-- The byte where the text stops being made of tokens. -/
def LexError.offset : LexError → Nat
  | unexpectedCharacter _ offset | unterminatedString offset => offset

/-- The same error in a text that `bytes` more bytes stand in front of. -/
def LexError.shift (bytes : Nat) : LexError → LexError
  | unexpectedCharacter ch offset => unexpectedCharacter ch (bytes + offset)
  | unterminatedString offset => unterminatedString (bytes + offset)

/-- What a cursor finds ahead once separators are skipped. -/
inductive Lookahead where
  | nothing
  | token (t : Token) (behind : Cursor)
  | error (e : LexError)

namespace Token

/-- A token whose payload is the run of characters ahead that satisfy `p`. -/
def munched (kind : TokenKind) (p : Char → Bool) (c : Cursor) : Lookahead :=
  .token ⟨kind, (c.munch p).1⟩ (c.munch p).2

/-- The string whose opening quote is ahead. -/
def quoted (c : Cursor) : Lookahead :=
  let contents := c.advance.munch (· != quote)
  match contents.2.peek? with
  | none => .error (.unterminatedString c.offset)
  | some _ => .token ⟨.string, contents.1⟩ contents.2.advance

/-- The token that starts right at the cursor. -/
def start (c : Cursor) : Lookahead :=
  match c.peek? with
  | none => .nothing
  | some ch =>
      if ch = '(' then .token openParen c.advance
      else if ch = ')' then .token closeParen c.advance
      else if ch = quote then quoted c
      else if ch.isDigit then munched .number Char.isDigit c
      else if ch.isAlpha then munched .name Char.isAlpha c
      else .error (.unexpectedCharacter ch c.offset)

def next (c : Cursor) : Lookahead :=
  start (c.skipWhile isSeparator)

theorem length_rest_quoted_lt {c behind : Cursor} {ch : Char} {t : Token}
    (hpeek : c.peek? = some ch) (h : quoted c = .token t behind) :
    behind.rest.length < c.rest.length := by
  have hfirst := Cursor.length_rest_advance_lt hpeek
  have hrun := Cursor.length_rest_skipWhile_le (· != quote) c.advance
  have hlast : ∀ d : Cursor, d.advance.rest.length ≤ d.rest.length := by
    intro d
    unfold Cursor.advance
    split <;> simp_all
  have hend := hlast (c.advance.skipWhile (· != quote))
  unfold quoted at h
  dsimp only at h
  split at h
  · cases h
  · cases h
    rw [Cursor.munch_snd]
    omega

theorem length_rest_start_lt {c behind : Cursor} {t : Token} (h : start c = .token t behind) :
    behind.rest.length < c.rest.length := by
  unfold start at h
  split at h
  · cases h
  · next ch hpeek =>
    have hadvance := Cursor.length_rest_advance_lt hpeek
    split at h
    · cases h
      exact hadvance
    · split at h
      · cases h
        exact hadvance
      · split at h
        · exact length_rest_quoted_lt hpeek h
        · split at h
          · next hdigit =>
            cases h
            exact Cursor.length_rest_skipWhile_lt hpeek hdigit
          · split at h
            · next halpha =>
              cases h
              exact Cursor.length_rest_skipWhile_lt hpeek halpha
            · cases h

theorem length_rest_next_lt {c behind : Cursor} {t : Token} (h : next c = .token t behind) :
    behind.rest.length < c.rest.length :=
  Nat.lt_of_lt_of_le (length_rest_start_lt h) (Cursor.length_rest_skipWhile_le isSeparator c)

end Token

/-- The tokens found in a text, and the error that ended the scan, if one did. -/
structure Scan where
  tokens : List Token
  error? : Option LexError
  deriving DecidableEq, Repr

namespace Scan

/-- Scans what lies ahead of the cursor, behind the tokens already found. -/
def continueFrom (c : Cursor) (found : Array Token) : Scan :=
  match h : Token.next c with
  | .nothing => ⟨found.toList, none⟩
  | .error e => ⟨found.toList, some e⟩
  | .token t behind =>
      have := Token.length_rest_next_lt h
      continueFrom behind (found.push t)
termination_by c.rest.length

def ofText (text : String) : Scan :=
  continueFrom (.ofText text) #[]

def result (s : Scan) : Except LexError (List Token) :=
  match s.error? with
  | none => .ok s.tokens
  | some e => .error e

end Scan

def Token.ofText (text : String) : Except LexError (List Token) :=
  (Scan.ofText text).result

end CallForms

import CallForms.Text.Offset
import CallForms.Token.Scan

/-!
Scanning by byte offset.

The offset where a token starts is kept, and its payload is the slice from there to where the token
ends. As in all access by offset, any of these slices could be refused.
-/

namespace CallForms

namespace Offset

def munched? (text : String) (kind : TokenKind) (p : Char → Bool) (start : Nat) :
    Option (Except LexError (Token × Nat)) :=
  (skipWhile? text p start).bind fun stop =>
    (slice? text start stop).map fun value => .ok (⟨kind, value⟩, stop)

/-- The string whose opening quote stands at `start`. Only a string that is closed is sliced. -/
def quoted? (text : String) (start : Nat) : Option (Except LexError (Token × Nat)) :=
  (advance? text start).bind fun (_, inner) =>
    (skipWhile? text (· != Token.quote) inner).bind fun stop =>
      (peek? text stop).bind fun seen =>
        match seen with
        | none => some (.error (.unterminatedString start))
        | some _ =>
            (slice? text inner stop).bind fun value =>
              (advance? text stop).map fun (_, behind) => .ok (⟨.string, value⟩, behind)

/-- The token at `start`, where a character has to be. -/
def token? (text : String) (start : Nat) : Option (Except LexError (Token × Nat)) :=
  (peek? text start).bind fun seen =>
    match seen with
    | none => none
    | some ch =>
        if ch = '(' then
          (advance? text start).map fun (_, behind) => .ok (.openParen, behind)
        else if ch = ')' then
          (advance? text start).map fun (_, behind) => .ok (.closeParen, behind)
        else if ch = Token.quote then quoted? text start
        else if ch.isDigit then munched? text .number Char.isDigit start
        else if ch.isAlpha then munched? text .name Char.isAlpha start
        else some (.error (.unexpectedCharacter ch start))

section Progress

variable {text : String} {start behind : Nat} {t : Token} {ch : Char}

theorem lt_of_munched? {kind : TokenKind} {p : Char → Bool}
    (hpeek : peek? text start = some (some ch)) (hp : p ch = true)
    (h : munched? text kind p start = some (.ok (t, behind))) : start < behind := by
  obtain ⟨stop, hskip, hslice⟩ := Option.bind_eq_some_iff.mp h
  obtain ⟨value, -, hpair⟩ := Option.map_eq_some_iff.mp hslice
  cases hpair
  exact lt_of_skipWhile? hpeek hp hskip

theorem lt_of_quoted? (hpeek : peek? text start = some (some ch))
    (h : quoted? text start = some (.ok (t, behind))) : start < behind := by
  obtain ⟨⟨_, inner⟩, hadvance, h⟩ := Option.bind_eq_some_iff.mp h
  obtain ⟨stop, hskip, h⟩ := Option.bind_eq_some_iff.mp h
  obtain ⟨seen, -, h⟩ := Option.bind_eq_some_iff.mp h
  cases seen with
  | none => cases h
  | some _ =>
      obtain ⟨value, -, h⟩ := Option.bind_eq_some_iff.mp h
      obtain ⟨⟨_, last⟩, hlast, hpair⟩ := Option.map_eq_some_iff.mp h
      cases hpair
      have hfirst := lt_of_advance? hpeek hadvance
      have hrun := le_of_skipWhile? hskip
      have hend := le_of_advance? hlast
      omega

/-- A token takes up at least a byte of the text. -/
theorem lt_of_token? (h : token? text start = some (.ok (t, behind))) :
    start < behind ∧ start < text.utf8ByteSize := by
  obtain ⟨seen, hpeek, h⟩ := Option.bind_eq_some_iff.mp h
  cases seen with
  | none => cases h
  | some ch =>
      have hle := add_utf8Size_le_of_peek? hpeek
      have hpos := ch.utf8Size_pos
      have hparen {paren : Token} (h : ((advance? text start).map fun (_, behind) =>
          (Except.ok (paren, behind) : Except LexError (Token × Nat))) = some (.ok (t, behind))) :
          start < behind := by
        obtain ⟨⟨_, last⟩, hadvance, hpair⟩ := Option.map_eq_some_iff.mp h
        cases hpair
        exact lt_of_advance? hpeek hadvance
      refine ⟨?_, by omega⟩
      dsimp only at h
      split at h
      · exact hparen h
      · split at h
        · exact hparen h
        · split at h
          · exact lt_of_quoted? hpeek h
          · split at h
            · next hdigit => exact lt_of_munched? hpeek hdigit h
            · split at h
              · next halpha => exact lt_of_munched? hpeek halpha h
              · cases h

end Progress

/-- Scans from the offset on, behind the tokens already found. -/
def scanFrom? (text : String) (offset : Nat) (found : Array Token) : Option Scan :=
  match hskip : skipWhile? text isSeparator offset with
  | none => none
  | some start =>
      if atEnd text start then
        some ⟨found.toList, none⟩
      else
        match htoken : token? text start with
        | none => none
        | some (.error e) => some ⟨found.toList, some e⟩
        | some (.ok (t, behind)) =>
            have := le_of_skipWhile? hskip
            have := lt_of_token? htoken
            scanFrom? text behind (found.push t)
termination_by text.utf8ByteSize - offset

section ScanFrom

variable {text : String} {offset start : Nat} {found : Array Token}

theorem scanFrom?_end (hskip : skipWhile? text isSeparator offset = some start)
    (hend : atEnd text start = true) : scanFrom? text offset found = some ⟨found.toList, none⟩ := by
  rw [scanFrom?]
  split <;> simp_all

theorem scanFrom?_error {e : LexError} (hskip : skipWhile? text isSeparator offset = some start)
    (hend : atEnd text start = false) (htoken : token? text start = some (.error e)) :
    scanFrom? text offset found = some ⟨found.toList, some e⟩ := by
  rw [scanFrom?]
  split
  · simp_all
  · next _ hfound =>
    cases hskip.symm.trans hfound
    simp only [hend, Bool.false_eq_true, if_false]
    split <;> simp_all

theorem scanFrom?_token {t : Token} {behind : Nat}
    (hskip : skipWhile? text isSeparator offset = some start) (hend : atEnd text start = false)
    (htoken : token? text start = some (.ok (t, behind))) :
    scanFrom? text offset found = scanFrom? text behind (found.push t) := by
  rw [scanFrom?]
  split
  · simp_all
  · next _ hfound =>
    cases hskip.symm.trans hfound
    simp only [hend, Bool.false_eq_true, if_false]
    split <;> simp_all

end ScanFrom

def scan? (text : String) : Option Scan :=
  scanFrom? text 0 #[]

end Offset

end CallForms

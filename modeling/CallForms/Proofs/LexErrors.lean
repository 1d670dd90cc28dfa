import CallForms.Proofs.Joining

/-!
Where a scan fails.

A failed scan divides the text in two. The part in front scans to its end, with just the tokens
that the failed scan found, and the part behind begins with the offence: a foreign character, or a
quote that none follows. The error names that place by the bytes in front of it. The other way
round, every text that can be divided so fails there.
-/

namespace CallForms

/-- The text, which begins at byte `offset`, begins with what no token can begin with. -/
inductive Offends (offset : Nat) : List Char → LexError → Prop where
  | foreign {ch : Char} {rest : List Char} :
      isForeign ch = true → Offends offset (ch :: rest) (.unexpectedCharacter ch offset)
  | unclosed {rest : List Char} :
      Token.quote ∉ rest → Offends offset (Token.quote :: rest) (.unterminatedString offset)

namespace Offends

variable {offset : Nat} {text : List Char} {e : LexError}

theorem scans (h : Offends offset text e) : Scans offset text [] (some e) := by
  cases h with
  | foreign hch => exact .foreign isGap_nil hch
  | unclosed hquote => exact .unclosed isGap_nil hquote

theorem exists_eq_cons (h : Offends offset text e) : ∃ ch rest, text = ch :: rest := by
  cases h with
  | foreign _ => exact ⟨_, _, rfl⟩
  | unclosed _ => exact ⟨_, _, rfl⟩

/-- No token goes on into an offence. -/
theorem endsRun (h : Offends offset text e) (kind : TokenKind) : EndsRun kind.continues text := by
  cases h with
  | foreign hch =>
      simp only [isForeign, Bool.and_eq_true, isNeutral_iff] at hch
      obtain ⟨-, hdigit, halpha, -⟩ := hch
      cases kind <;> simp [TokenKind.continues, hdigit, halpha]
  | unclosed _ => cases kind <;> simp [TokenKind.continues, Token.quote]

theorem keepApart (h : Offends offset text e) (left : List Char) : KeepApart left text := by
  intro kind _ _ _
  exact h.endsRun kind

end Offends

theorem EndsRun.of_append {p : Char → Bool} {left right : List Char}
    (h : EndsRun p (left ++ right)) : EndsRun p left := by
  cases left with
  | nil => exact endsRun_nil p
  | cons ch left => simpa using h

namespace Scans

/-- A failed scan comes to an offence behind a text that scans to its end. -/
theorem exists_offends {offset : Nat} {text : List Char} {tokens : List Token} {e : LexError}
    (h : Scans offset text tokens (some e)) :
    ∃ before rest, text = before ++ rest ∧ Scans offset before tokens none ∧
      Offends (offset + byteLength before) rest e := by
  generalize hfail : some e = error? at h
  induction h with
  | nothing _ => cases hfail
  | @token offset gap rest t ts _ hgap ht hend _ ih =>
      obtain ⟨before, behind, rfl, hbefore, hoffends⟩ := ih hfail
      refine ⟨gap ++ (t.spelling ++ before), behind, by simp, ?_, ?_⟩
      · exact .token hgap ht hend.of_append hbefore
      · simpa [Nat.add_assoc] using hoffends
  | @foreign offset gap rest ch hgap hch =>
      cases hfail
      exact ⟨gap, ch :: rest, rfl, .nothing hgap, .foreign hch⟩
  | @unclosed offset gap rest hgap hquote =>
      cases hfail
      exact ⟨gap, Token.quote :: rest, rfl, .nothing hgap, .unclosed hquote⟩

theorem some_iff_offends {offset : Nat} {text : List Char} {tokens : List Token} {e : LexError} :
    Scans offset text tokens (some e) ↔
      ∃ before rest, text = before ++ rest ∧ Scans offset before tokens none ∧
        Offends (offset + byteLength before) rest e := by
  constructor
  · exact exists_offends
  · rintro ⟨before, rest, rfl, hbefore, hoffends⟩
    simpa using hbefore.append (hoffends.keepApart before) hoffends.scans

end Scans

namespace Token

/-- A text fails to scan just when a character in it offends and the part in front of it scans. -/
theorem ofText_eq_error_iff_offends (text : String) (e : LexError) :
    Token.ofText text = .error e ↔
      ∃ (before : String) (ch : Char) (behind : String), text = before ++ ch.toString ++ behind ∧
        (∃ tokens, Token.ofText before = .ok tokens) ∧
        Offends before.utf8ByteSize (ch :: behind.toList) e := by
  simp only [ofText_eq_error_iff, Scans.some_iff_offends, ofText_eq_ok_iff, ← byteLength_toList]
  constructor
  · rintro ⟨tokens, before, rest, htext, hbefore, hoffends⟩
    obtain ⟨ch, behind, rfl⟩ := hoffends.exists_eq_cons
    refine ⟨String.ofList before, ch, String.ofList behind, ?_, ⟨tokens, ?_⟩, ?_⟩
    · rw [← String.toList_inj, htext]
      simp
    · simpa using hbefore
    · simpa using hoffends
  · rintro ⟨before, ch, behind, rfl, ⟨tokens, hbefore⟩, hoffends⟩
    refine ⟨tokens, before.toList, ch :: behind.toList, by simp, hbefore, ?_⟩
    simpa using hoffends

/-- A scan stops at a character exactly if the text in front of it scans and the character is
foreign, and at a quote exactly if the text in front of it scans and no quote comes behind. The
offset is the number of bytes in front. -/
theorem ofText_eq_error_iff_first_offence (text : String) :
    (∀ (ch : Char) (offset : Nat),
      Token.ofText text = .error (.unexpectedCharacter ch offset) ↔
        ∃ before behind : String, text = before ++ ch.toString ++ behind ∧
          offset = before.utf8ByteSize ∧ (∃ tokens, Token.ofText before = .ok tokens) ∧
          isForeign ch = true) ∧
    ∀ offset : Nat,
      Token.ofText text = .error (.unterminatedString offset) ↔
        ∃ before behind : String, text = before ++ quote.toString ++ behind ∧
          offset = before.utf8ByteSize ∧ (∃ tokens, Token.ofText before = .ok tokens) ∧
          quote ∉ behind.toList := by
  constructor
  · intro ch offset
    rw [ofText_eq_error_iff_offends]
    constructor
    · rintro ⟨before, _, behind, rfl, hbefore, hoffends⟩
      cases hoffends with
      | foreign hch => exact ⟨before, behind, rfl, rfl, hbefore, hch⟩
    · rintro ⟨before, behind, rfl, rfl, hbefore, hch⟩
      exact ⟨before, ch, behind, rfl, hbefore, .foreign hch⟩
  · intro offset
    rw [ofText_eq_error_iff_offends]
    constructor
    · rintro ⟨before, _, behind, rfl, hbefore, hoffends⟩
      cases hoffends with
      | unclosed hquote => exact ⟨before, behind, rfl, rfl, hbefore, hquote⟩
    · rintro ⟨before, behind, rfl, rfl, hbefore, hquote⟩
      exact ⟨before, quote, behind, rfl, hbefore, .unclosed hquote⟩

end Token

end CallForms

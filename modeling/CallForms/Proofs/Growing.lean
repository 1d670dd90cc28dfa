import CallForms.Proofs.LexErrors

/-!
Texts that grow at their end.

Behind a text that scans, more text adds tokens, and it lengthens the last token if that is a number
or a name that goes on. So the tokens keep their shapes: their kinds, and the payloads of the
parentheses. What is written behind a space adds its own tokens and nothing else.
-/

namespace CallForms

namespace Token

/-- A token without the payload that can grow. -/
def shape (t : Token) : Token :=
  match t.kind with
  | .paren => t
  | .string | .number | .name => ⟨t.kind, ""⟩

theorem isRun_append {p : Char → Bool} {value : String} {run : List Char}
    (hvalue : value ≠ "" ∧ ∀ ch ∈ value.toList, p ch = true) (hrun : ∀ ch ∈ run, p ch = true) :
    value ++ String.ofList run ≠ "" ∧
      ∀ ch ∈ (value ++ String.ofList run).toList, p ch = true := by
  refine ⟨by simp [hvalue.1], ?_⟩
  intro ch hch
  rw [String.toList_append, String.toList_ofList, List.mem_append] at hch
  rcases hch with h | h
  · exact hvalue.2 ch h
  · exact hrun ch h

/-- With more of its characters behind it a token is a longer one of its kind. -/
theorem exists_spelling_append {t : Token} {run : List Char} (ht : t.WellFormed)
    (hrun : ∀ ch ∈ run, t.kind.continues ch = true) :
    ∃ longer : Token, longer.WellFormed ∧ longer.kind = t.kind ∧
      longer.spelling = t.spelling ++ run ∧ longer.shape = t.shape := by
  obtain ⟨kind, value⟩ := t
  cases kind with
  | paren =>
      have hnil : run = [] := by
        simpa [TokenKind.continues, List.eq_nil_iff_forall_not_mem] using hrun
      exact ⟨_, ht, rfl, by simp [hnil], rfl⟩
  | string =>
      have hnil : run = [] := by
        simpa [TokenKind.continues, List.eq_nil_iff_forall_not_mem] using hrun
      exact ⟨_, ht, rfl, by simp [hnil], rfl⟩
  | number =>
      refine ⟨⟨.number, value ++ String.ofList run⟩, isRun_append ht hrun, rfl, ?_, rfl⟩
      simp [spelling]
  | name =>
      refine ⟨⟨.name, value ++ String.ofList run⟩, isRun_append ht hrun, rfl, ?_, rfl⟩
      simp [spelling]

end Token

/-- More text behind a text that scans leaves the shapes of its tokens as they are. -/
theorem Scans.exists_append {offset : Nat} {left : List Char} {ts : List Token}
    (h : Scans offset left ts none) (right : List Char) :
    ∃ us error?, Scans offset (left ++ right) us error? ∧
      ts.map Token.shape <+: us.map Token.shape := by
  generalize hend : (none : Option LexError) = end? at h
  induction h with
  | @nothing offset gap _ =>
      obtain ⟨us, error?, hus⟩ := Scans.exists_scans (gap ++ right) offset
      exact ⟨us, error?, hus, List.nil_prefix⟩
  | @token offset gap rest t ts _ hgap ht hrun hscan ih =>
      cases rest with
      | cons ch rest =>
          obtain ⟨us, error?, hus, hshape⟩ := ih hend
          have hapart : EndsRun t.kind.continues (ch :: rest ++ right) := by simpa using hrun
          refine ⟨t :: us, error?, ?_, ?_⟩
          · simpa using Scans.token hgap ht hapart hus
          · simpa using hshape
      | nil =>
          -- The token ends the text, so the run that the new text begins with belongs to it.
          obtain ⟨run, behind, rfl, hmore, hbehind⟩ := exists_run t.kind.continues right
          obtain ⟨longer, hlonger, hkind, hspelling, hshape⟩ :=
            Token.exists_spelling_append ht hmore
          obtain ⟨us, error?, hus⟩ :=
            Scans.exists_scans behind (offset + byteLength (gap ++ longer.spelling))
          have hall := Scans.token hgap hlonger (by rwa [hkind]) hus
          refine ⟨longer :: us, error?, ?_, ?_⟩
          · simpa [hspelling] using hall
          · simp [hscan.tokens_eq_nil, hshape]
  | foreign _ _ => cases hend
  | unclosed _ _ => cases hend

namespace Token

theorem map_shape_isPrefix {text more : String} {ts us : List Token}
    (hts : Token.ofText text = .ok ts) (hus : Token.ofText (text ++ more) = .ok us) :
    ts.map shape <+: us.map shape := by
  rw [ofText_eq_ok_iff] at hts hus
  obtain ⟨found, error?, hfound, hshape⟩ := hts.exists_append more.toList
  rw [← String.toList_append, ← Scan.ofText_eq_iff] at hfound
  rw [← Scan.ofText_eq_iff, hfound, Scan.mk.injEq] at hus
  rwa [← hus.1]

/-- The tokens, each behind a space. -/
def spaced (tokens : List Token) : String :=
  String.ofList (tokens.flatMap fun t => ' ' :: t.spelling)

theorem endsRun_spaced (kind : TokenKind) (tokens : List Token) :
    EndsRun kind.continues (spaced tokens).toList := by
  cases tokens with
  | nil => simp [spaced]
  | cons t tokens => cases kind <;> simp [spaced, TokenKind.continues]

theorem spells_spaced {tokens : List Token} (h : ∀ t ∈ tokens, t.WellFormed) :
    Spells tokens (spaced tokens).toList := by
  induction tokens with
  | nil => simpa [spaced] using Spells.nothing isGap_nil
  | cons t tokens ih =>
      rw [List.forall_mem_cons] at h
      have hspace : IsGap [' '] := by
        rw [isGap_cons]
        exact ⟨by decide, isGap_nil⟩
      have hall := Spells.cons hspace h.1 (endsRun_spaced t.kind tokens) (ih h.2)
      simpa [spaced] using hall

/-- Well-formed tokens can be written behind any text. -/
theorem ofText_append_spaced {text : String} {tokens more : List Token}
    (htext : Token.ofText text = .ok tokens) (hmore : ∀ t ∈ more, t.WellFormed) :
    Token.ofText (text ++ spaced more) = .ok (tokens ++ more) := by
  have hspaced : Token.ofText (spaced more) = .ok more :=
    (ofText_eq_ok_iff _ _).mpr ((spells_spaced hmore).scans 0)
  have hapart : KeepApart text.toList (spaced more).toList := by
    intro kind _ _ _
    exact endsRun_spaced kind more
  rw [ofText_append htext hapart, hspaced]

section Quoted

variable {text content : String} {tokens : List Token}

theorem ofText_append_quoted (htext : Token.ofText text = .ok tokens)
    (hcontent : quote ∉ content.toList) :
    Token.ofText (text ++ "\"" ++ content ++ "\"") = .ok (tokens ++ [⟨.string, content⟩]) := by
  have hstring : Token.WellFormed ⟨.string, content⟩ := hcontent
  have hquoted : Token.ofText ("\"" ++ content ++ "\"") = .ok [⟨.string, content⟩] := by
    have hspells : Spells [⟨.string, content⟩] ("\"" ++ content ++ "\"").toList := by
      simpa [spelling, quote] using Spells.last isGap_nil hstring isGap_nil
    exact (ofText_eq_ok_iff _ _).mpr (hspells.scans 0)
  have hapart : KeepApart text.toList ("\"" ++ content ++ "\"").toList := by
    intro kind _ _ _
    cases kind <;> simp [TokenKind.continues]
  have hboth := ofText_append htext hapart
  rw [hquoted] at hboth
  simpa [String.append_assoc] using hboth

theorem ofText_append_unclosed (htext : Token.ofText text = .ok tokens)
    (hcontent : quote ∉ content.toList) :
    Token.ofText (text ++ "\"" ++ content) = .error (.unterminatedString text.utf8ByteSize) := by
  rw [ofText_eq_error_iff_offends]
  exact ⟨text, quote, content, rfl, ⟨tokens, htext⟩, .unclosed hcontent⟩

theorem exists_unclosed {offset : Nat}
    (h : Token.ofText text = .error (.unterminatedString offset)) :
    ∃ before rest tokens, text = before ++ "\"" ++ rest ∧ offset = before.utf8ByteSize ∧
      Token.ofText before = .ok tokens ∧ quote ∉ rest.toList := by
  obtain ⟨before, _, rest, rfl, ⟨tokens, hbefore⟩, hoffends⟩ :=
    (ofText_eq_error_iff_offends _ _).mp h
  cases hoffends with
  | unclosed hrest => exact ⟨before, rest, tokens, rfl, rfl, hbefore, hrest⟩

end Quoted

/-- Nothing behind a foreign character is looked at. -/
theorem ofText_append_of_unexpectedCharacter {text : String} {ch : Char} {offset : Nat}
    (h : Token.ofText text = .error (.unexpectedCharacter ch offset)) (more : String) :
    Token.ofText (text ++ more) = .error (.unexpectedCharacter ch offset) := by
  rw [ofText_eq_error_iff_offends] at h ⊢
  obtain ⟨before, first, behind, rfl, hbefore, hoffends⟩ := h
  refine ⟨before, first, behind ++ more, String.append_assoc, hbefore, ?_⟩
  cases hoffends with
  | foreign hch => exact .foreign hch

end Token

end CallForms

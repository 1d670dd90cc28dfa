import CallForms.Proofs.Scanning

/-!
Scanning undoes spelling: a text scans to a list of tokens just when it is a spelling of them.

A spelling may put any gap between two tokens, and none where they do not run together; a scan
takes tokens that are as long as they can be. Both say the same about where one token ends and the
next one begins, which is what `Spells.cons` and `Spells.endsRun` show.
-/

namespace CallForms

theorem TokenKind.not_continues_of_isSeparator {ch : Char} (h : isSeparator ch = true)
    (kind : TokenKind) : kind.continues ch = false := by
  obtain ⟨hdigit, halpha, -⟩ := (isNeutral_iff ch).mp (isNeutral_of_isSeparator h)
  cases kind <;> simp [continues, hdigit, halpha]

theorem IsGap.append {left right : List Char} (hleft : IsGap left) (hright : IsGap right) :
    IsGap (left ++ right) := by
  intro ch hch
  rcases List.mem_append.mp hch with h | h
  · exact hleft ch h
  · exact hright ch h

/-- A gap ends every token in front of it. -/
theorem IsGap.endsRun {gap rest : List Char} (hgap : IsGap gap) (kind : TokenKind)
    (hrest : gap = [] → EndsRun kind.continues rest) : EndsRun kind.continues (gap ++ rest) :=
  endsRun_append (fun ch hch => kind.not_continues_of_isSeparator (hgap ch hch)) hrest

/-- A gap in front of the text changes nothing but the offset. -/
theorem Scans.gap_append {offset : Nat} {gap text : List Char} {tokens : List Token}
    {error? : Option LexError} (hgap : IsGap gap)
    (h : Scans (offset + byteLength gap) text tokens error?) :
    Scans offset (gap ++ text) tokens error? := by
  cases h with
  | nothing hmore => exact .nothing (hgap.append hmore)
  | token hmore ht hend hrest =>
      rw [← List.append_assoc]
      refine .token (hgap.append hmore) ht hend ?_
      simpa [Nat.add_assoc] using hrest
  | foreign hmore hch =>
      rw [← List.append_assoc, Nat.add_assoc, ← byteLength_append]
      exact .foreign (hgap.append hmore) hch
  | unclosed hmore hquote =>
      rw [← List.append_assoc, Nat.add_assoc, ← byteLength_append]
      exact .unclosed (hgap.append hmore) hquote

namespace Spells

/-- The gap in front of the first token can be taken off. -/
theorem exists_gap {t : Token} {ts : List Token} {text : List Char} (h : Spells (t :: ts) text) :
    ∃ gap behind, text = gap ++ (t.spelling ++ behind) ∧ IsGap gap ∧ t.WellFormed ∧
      Spells (t :: ts) (t.spelling ++ behind) := by
  cases h with
  | @last gap tail _ hgap ht htail =>
      refine ⟨gap, tail, by simp, hgap, ht, ?_⟩
      simpa using last isGap_nil ht htail
  | @more gap between rest _ next ts hgap ht hbetween hruns hrest =>
      refine ⟨gap, between ++ rest, by simp, hgap, ht, ?_⟩
      simpa using more isGap_nil ht hbetween hruns hrest

/-- A token that nothing continues can be put in front of a spelling. -/
theorem cons {gap rest : List Char} {t : Token} {ts : List Token} (hgap : IsGap gap)
    (ht : t.WellFormed) (hend : EndsRun t.kind.continues rest) (h : Spells ts rest) :
    Spells (t :: ts) (gap ++ (t.spelling ++ rest)) := by
  rw [← List.append_assoc]
  cases ts with
  | nil =>
      cases h with
      | nothing hrest => exact last hgap ht hrest
  | cons next ts =>
      obtain ⟨between, behind, rfl, hbetween, hnext, hspells⟩ := h.exists_gap
      refine more hgap ht hbetween ?_ hspells
      -- With no gap in between, the first character of the next token would continue this one.
      rintro hruns rfl
      obtain ⟨ch, more, hspelling, -, hcontinues⟩ := Token.exists_spelling_eq_cons hnext
      have hnot : t.kind.continues ch = false := by simpa [hspelling] using hend
      simp [(hcontinues t).mpr hruns] at hnot

/-- In a spelling no token is continued by what comes behind it. -/
theorem endsRun {between rest : List Char} {t next : Token} {ts : List Token}
    (hbetween : IsGap between) (hruns : t.RunsInto next → between ≠ [])
    (h : Spells (next :: ts) rest) : EndsRun t.kind.continues (between ++ rest) := by
  refine hbetween.endsRun t.kind ?_
  intro hempty
  obtain ⟨gap, behind, rfl, hgap, hnext, -⟩ := h.exists_gap
  refine hgap.endsRun t.kind ?_
  intro _
  obtain ⟨ch, more, hspelling, -, hcontinues⟩ := Token.exists_spelling_eq_cons hnext
  rw [hspelling, List.cons_append, endsRun_cons, Bool.eq_false_iff]
  intro hch
  exact hruns ((hcontinues t).mp hch) hempty

theorem scans {tokens : List Token} {text : List Char} (h : Spells tokens text) :
    ∀ offset, Scans offset text tokens none := by
  induction h with
  | nothing hgap =>
      intro offset
      exact .nothing hgap
  | @last gap tail t hgap ht htail =>
      intro offset
      rw [List.append_assoc]
      have hend : EndsRun t.kind.continues tail := by
        simpa using htail.endsRun t.kind fun _ => endsRun_nil _
      exact .token hgap ht hend (.nothing htail)
  | more hgap ht hbetween hruns hrest ih =>
      intro offset
      rw [List.append_assoc]
      exact .token hgap ht (endsRun hbetween hruns hrest) (.gap_append hbetween (ih _))

end Spells

theorem Scans.spells {offset : Nat} {text : List Char} {tokens : List Token}
    {error? : Option LexError} (h : Scans offset text tokens error?) (hok : error? = none) :
    Spells tokens text := by
  induction h with
  | nothing hgap => exact .nothing hgap
  | token hgap ht hend _ ih => exact .cons hgap ht hend (ih hok)
  | foreign _ _ => cases hok
  | unclosed _ _ => cases hok

/-- Scanning accepts exactly the spellings of lists of well-formed tokens. What is found does not
depend on the gaps: two texts that spell the same tokens scan alike. -/
theorem Token.ofText_eq_ok_iff_spells (text : String) (tokens : List Token) :
    (Token.ofText text = .ok tokens ↔ Spells tokens text.toList) ∧
      ∀ respaced : String, Spells tokens text.toList → Spells tokens respaced.toList →
        Token.ofText respaced = Token.ofText text := by
  have hiff (text : String) : Token.ofText text = .ok tokens ↔ Spells tokens text.toList := by
    rw [Token.ofText_eq_ok_iff]
    exact ⟨fun h => h.spells rfl, fun h => h.scans 0⟩
  refine ⟨hiff text, ?_⟩
  intro respaced htext hrespaced
  rw [(hiff text).mpr htext, (hiff respaced).mpr hrespaced]

/-- Two numbers need a gap between them; a parenthesis or a string needs none, and the parenthesis
inside the string is not a token. -/
theorem Token.ofText_respaced_numbers :
    Spells [openParen, ⟨.name, "f"⟩, ⟨.number, "1"⟩, ⟨.number, "2"⟩, ⟨.string, ") "⟩, closeParen]
        "(f 1 2\") \")".toList ∧
      Spells [openParen, ⟨.name, "f"⟩, ⟨.number, "1"⟩, ⟨.number, "2"⟩, ⟨.string, ") "⟩, closeParen]
        "\n( f1\t 2 \") \" ) ".toList ∧
      Token.ofText "\n( f1\t 2 \") \" ) " = Token.ofText "(f 1 2\") \")" := by
  let tokens : List Token :=
    [openParen, ⟨.name, "f"⟩, ⟨.number, "1"⟩, ⟨.number, "2"⟩, ⟨.string, ") "⟩, closeParen]
  have htext : Token.ofText "(f 1 2\") \")" = .ok tokens := by decide +kernel
  have hrespaced : Token.ofText "\n( f1\t 2 \") \" ) " = .ok tokens := by decide +kernel
  have hspells := (Token.ofText_eq_ok_iff_spells _ tokens).1.mp htext
  have hspells' := (Token.ofText_eq_ok_iff_spells _ tokens).1.mp hrespaced
  exact ⟨hspells, hspells', (Token.ofText_eq_ok_iff_spells _ tokens).2 _ hspells hspells'⟩

end CallForms

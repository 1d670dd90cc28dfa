import CallForms.Proofs.Spelling

/-!
Scanning a text that is put together from two.

If the first text scans to its end, the tokens of the second one follow its tokens, and the second
one fails where it fails alone, only further on. All that could go wrong is a number or a name that
ends the first text and goes on in the second.
-/

namespace CallForms

theorem byteLength_toList (text : String) : byteLength text.toList = text.utf8ByteSize := by
  induction text using String.push_induction with
  | empty => rfl
  | push text ch ih => simp [ih]

theorem firstBytes_append (left right : String) :
    firstBytes left.utf8ByteSize (left ++ right) = left := by
  rw [firstBytes, ← byteLength_toList, String.toList_append, takeBytes_byteLength_append,
    String.ofList_toList]

theorem exists_toList_eq_concat {p : Char → Bool} {value : String} (hne : value ≠ "")
    (hrun : ∀ ch ∈ value.toList, p ch = true) :
    ∃ front ch, value.toList = front ++ [ch] ∧ p ch = true := by
  have hnil : value.toList ≠ [] := mt String.toList_eq_nil_iff.mp hne
  refine ⟨value.toList.dropLast, value.toList.getLast hnil, ?_, ?_⟩
  · exact (List.dropLast_concat_getLast hnil).symm
  · exact hrun _ (List.getLast_mem hnil)

namespace Token

/-- The last character of a token: only a kind of token that is made of runs goes on behind it, and
then it is the token's own. -/
theorem exists_spelling_eq_concat {t : Token} (ht : t.WellFormed) :
    ∃ front ch, t.spelling = front ++ [ch] ∧
      ∀ kind : TokenKind, kind.continues ch = true ↔ kind = t.kind ∧ t.RunsInto t := by
  obtain ⟨kind, value⟩ := t
  cases kind with
  | paren =>
      rcases ht with rfl | rfl
      · refine ⟨[], '(', rfl, ?_⟩
        intro kind
        cases kind <;> simp [TokenKind.continues, RunsInto]
      · refine ⟨[], ')', rfl, ?_⟩
        intro kind
        cases kind <;> simp [TokenKind.continues, RunsInto]
  | string =>
      refine ⟨quote :: value.toList, quote, rfl, ?_⟩
      intro kind
      cases kind <;> simp [TokenKind.continues, RunsInto, quote]
  | number =>
      obtain ⟨hne, hdigits⟩ := ht
      obtain ⟨front, ch, hvalue, hdigit⟩ := exists_toList_eq_concat hne hdigits
      have halpha : ch.isAlpha = false := by
        rw [Bool.eq_false_iff]
        intro h
        simp [(not_delimiter_of_isAlpha h).2.2.2] at hdigit
      refine ⟨front, ch, hvalue, ?_⟩
      intro kind
      cases kind <;> simp [TokenKind.continues, RunsInto, hdigit, halpha]
  | name =>
      obtain ⟨hne, hletters⟩ := ht
      obtain ⟨front, ch, hvalue, halpha⟩ := exists_toList_eq_concat hne hletters
      have hdigit : ch.isDigit = false := (not_delimiter_of_isAlpha halpha).2.2.2
      refine ⟨front, ch, hvalue, ?_⟩
      intro kind
      cases kind <;> simp [TokenKind.continues, RunsInto, hdigit, halpha]

end Token

/-- No token that ends `left` would go on in `right`. -/
def KeepApart (left right : List Char) : Prop :=
  ∀ kind : TokenKind, ∀ ch ∈ left.getLast?, kind.continues ch = true → EndsRun kind.continues right

theorem KeepApart.of_append {front left right : List Char} (h : KeepApart (front ++ left) right) :
    KeepApart left right := by
  intro kind ch hch
  have hlast : ch ∈ (front ++ left).getLast? := by
    rw [Option.mem_def] at hch ⊢
    simp [List.getLast?_append, hch]
  exact h kind ch hlast

theorem IsGap.keepApart {gap : List Char} (hgap : IsGap gap) (left : List Char) :
    KeepApart left gap := by
  intro kind _ _ _
  simpa using hgap.endsRun kind fun _ => endsRun_nil _

/-- Behind a gap no token goes on. -/
theorem IsGap.keepApart_append {left gap right : List Char} (hgap : IsGap gap)
    (h : gap = [] → KeepApart left right) : KeepApart (left ++ gap) right := by
  intro kind ch hch hcontinues
  rw [Option.mem_def, List.getLast?_append, Option.or_eq_some_iff, List.getLast?_eq_none_iff] at hch
  rcases hch with hlast | ⟨hempty, hlast⟩
  · have hsep := hgap ch (List.mem_of_getLast? hlast)
    simp [kind.not_continues_of_isSeparator hsep] at hcontinues
  · exact h hempty kind ch hlast hcontinues

/-- What ends a token in the first text ends it in the two together. -/
theorem KeepApart.endsRun {gap rest right : List Char} {t : Token}
    (h : KeepApart (gap ++ (t.spelling ++ rest)) right) (ht : t.WellFormed)
    (hend : EndsRun t.kind.continues rest) : EndsRun t.kind.continues (rest ++ right) := by
  cases rest with
  | cons ch rest => simpa using hend
  | nil =>
      obtain ⟨front, ch, hspelling, hlast⟩ := Token.exists_spelling_eq_concat ht
      by_cases hruns : t.RunsInto t
      · refine h t.kind ch ?_ ((hlast t.kind).mpr ⟨rfl, hruns⟩)
        rw [Option.mem_def]
        simp [hspelling, List.getLast?_append]
      · intro ch _
        obtain ⟨kind, value⟩ := t
        cases kind <;> simp_all [TokenKind.continues, Token.RunsInto]

namespace Scans

/-- A text that scans to its end is followed by whatever the next text scans to. -/
theorem append {offset : Nat} {left right : List Char} {ts us : List Token}
    {error? : Option LexError} (hleft : Scans offset left ts none) (hapart : KeepApart left right)
    (hright : Scans (offset + byteLength left) right us error?) :
    Scans offset (left ++ right) (ts ++ us) error? := by
  generalize hend : (none : Option LexError) = end? at hleft
  induction hleft with
  | nothing hgap => exact .gap_append hgap hright
  | @token offset gap rest t ts _ hgap ht hrun _ ih =>
      have hrest : KeepApart rest right := by
        rw [← List.append_assoc] at hapart
        exact hapart.of_append
      have hoffset : offset + byteLength (gap ++ (t.spelling ++ rest)) =
          offset + byteLength (gap ++ t.spelling) + byteLength rest := by
        simp only [byteLength_append]
        omega
      rw [hoffset] at hright
      have hmore := ih hrest hright hend
      simpa using token hgap ht (hapart.endsRun ht hrun) hmore
  | foreign _ _ => cases hend
  | unclosed _ _ => cases hend

/-- The scan of a text further on in another one. -/
theorem shift {offset : Nat} {text : List Char} {tokens : List Token} {error? : Option LexError}
    (h : Scans offset text tokens error?) (bytes : Nat) :
    Scans (bytes + offset) text tokens (error?.map (LexError.shift bytes)) := by
  induction h with
  | nothing hgap => exact .nothing hgap
  | token hgap ht hend _ ih =>
      refine .token hgap ht hend ?_
      rwa [Nat.add_assoc]
  | foreign hgap hch =>
      rw [Option.map_some, LexError.shift, ← Nat.add_assoc]
      exact .foreign hgap hch
  | unclosed hgap hquote =>
      rw [Option.map_some, LexError.shift, ← Nat.add_assoc]
      exact .unclosed hgap hquote

theorem behind {text : String} {tokens : List Token} {error? : Option LexError}
    (h : Scans 0 text.toList tokens error?) (left : String) :
    Scans (0 + byteLength left.toList) text.toList tokens
      (error?.map (LexError.shift left.utf8ByteSize)) := by
  have hshift := h.shift left.utf8ByteSize
  rwa [Nat.zero_add, byteLength_toList]

theorem tokens_eq_nil {offset : Nat} {tokens : List Token} {error? : Option LexError}
    (h : Scans offset [] tokens error?) : tokens = [] := by
  generalize htext : ([] : List Char) = text at h
  cases h with
  | token _ ht _ _ =>
      obtain ⟨ch, more, hspelling, -, -⟩ := Token.exists_spelling_eq_cons ht
      simp [hspelling] at htext
  | nothing _ => rfl
  | foreign _ _ => rfl
  | unclosed _ _ => rfl

/-- A text whose last character could go on ends with the token it belongs to. -/
theorem exists_last_token {offset : Nat} {text : List Char} {tokens : List Token} {kind : TokenKind}
    {ch : Char} (h : Scans offset text tokens none) (hch : ch ∈ text.getLast?)
    (hkind : kind.continues ch = true) : ∃ t ∈ tokens.getLast?, t.kind = kind := by
  generalize hend : (none : Option LexError) = end? at h
  induction h with
  | nothing hgap =>
      have hsep := hgap ch (List.mem_of_getLast? hch)
      simp [kind.not_continues_of_isSeparator hsep] at hkind
  | @token offset gap rest t ts _ hgap ht _ hscan ih =>
      cases rest with
      | nil =>
          obtain ⟨front, last, hspelling, hlast⟩ := Token.exists_spelling_eq_concat ht
          have hsame : last = ch := by simpa [hspelling, List.getLast?_append] using hch
          have hts := hscan.tokens_eq_nil
          refine ⟨t, by simp [hts], ?_⟩
          rw [← hsame] at hkind
          exact ((hlast kind).mp hkind).1.symm
      | cons next rest =>
          obtain ⟨last, hmem, hlast⟩ := ih (by simpa [List.getLast?_append] using hch) hend
          refine ⟨last, ?_, hlast⟩
          rw [Option.mem_def] at hmem ⊢
          simp [List.getLast?_cons, hmem]
  | foreign _ _ => cases hend
  | unclosed _ _ => cases hend

end Scans

namespace Token

theorem ofText_eq_error_iff (text : String) (e : LexError) :
    Token.ofText text = .error e ↔ ∃ tokens, Scans 0 text.toList tokens (some e) := by
  simp only [← Scan.ofText_eq_iff]
  cases hscan : Scan.ofText text with
  | mk found end? => cases end? <;> simp [Token.ofText, Scan.result, hscan]

/-- The tokens of the second text follow those of the first, and its error is moved by the bytes of
the first. -/
theorem ofText_append {left right : String} {tokens : List Token}
    (hleft : Token.ofText left = .ok tokens) (hapart : KeepApart left.toList right.toList) :
    Token.ofText (left ++ right) =
      match Token.ofText right with
      | .ok more => .ok (tokens ++ more)
      | .error e => .error (e.shift left.utf8ByteSize) := by
  rw [ofText_eq_ok_iff] at hleft
  have hjoined {more : List Token} {error? : Option LexError}
      (h : Scans 0 right.toList more error?) :
      Scans 0 (left ++ right).toList (tokens ++ more)
        (error?.map (LexError.shift left.utf8ByteSize)) := by
    rw [String.toList_append]
    exact hleft.append hapart (h.behind left)
  cases hright : Token.ofText right with
  | ok more =>
      rw [ofText_eq_ok_iff] at hright ⊢
      exact hjoined hright
  | error e =>
      rw [ofText_eq_error_iff] at hright ⊢
      obtain ⟨more, hmore⟩ := hright
      exact ⟨tokens ++ more, hjoined hmore⟩

/-- A gap at the end of a text changes nothing. -/
theorem ofText_append_gap {text gap : String} {tokens : List Token}
    (h : Token.ofText text = .ok tokens) (hgap : IsGap gap.toList) :
    Token.ofText (text ++ gap) = .ok tokens := by
  have hnothing : Token.ofText gap = .ok [] := (ofText_eq_ok_iff gap []).mpr (.nothing hgap)
  rw [ofText_append h (hgap.keepApart text.toList), hnothing]
  simp

end Token

end CallForms

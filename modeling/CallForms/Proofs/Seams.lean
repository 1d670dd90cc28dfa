import CallForms.Proofs.Growing
import Mathlib.Data.List.Basic

/-!
Scanning across the seam of two texts.

Behind a text that scans, a second text is scanned as if it stood alone. Only a number or a name can
go on across the seam, and then its two parts become one token; whatever comes behind them is found
as before. An error in the second text is the same in either case, moved by the bytes of the first.
-/

namespace CallForms

/-- The texts meet inside a run of digits or a run of letters. -/
def RunsAcross (left right : List Char) : Prop :=
  ∃ last ∈ left.getLast?, ∃ first ∈ right.head?,
    (last.isDigit = true ∧ first.isDigit = true) ∨ (last.isAlpha = true ∧ first.isAlpha = true)

theorem runsAcross_iff_continues {left right : List Char} :
    RunsAcross left right ↔
      ∃ kind : TokenKind, ∃ last ∈ left.getLast?, ∃ first ∈ right.head?,
        kind.continues last = true ∧ kind.continues first = true := by
  constructor
  · rintro ⟨last, hlast, first, hfirst, hdigits | hletters⟩
    · exact ⟨.number, last, hlast, first, hfirst, hdigits⟩
    · exact ⟨.name, last, hlast, first, hfirst, hletters⟩
  · rintro ⟨kind, last, hlast, first, hfirst, hruns⟩
    cases kind with
    | number => exact ⟨last, hlast, first, hfirst, .inl hruns⟩
    | name => exact ⟨last, hlast, first, hfirst, .inr hruns⟩
    | paren => simp [TokenKind.continues] at hruns
    | string => simp [TokenKind.continues] at hruns

theorem keepApart_iff_not_runsAcross {left right : List Char} :
    KeepApart left right ↔ ¬ RunsAcross left right := by
  rw [runsAcross_iff_continues]
  constructor
  · rintro hapart ⟨kind, last, hlast, first, hfirst, hends, hbegins⟩
    simp [hapart kind last hlast hends first hfirst] at hbegins
  · intro hnot kind last hlast hends first hfirst
    rw [Bool.eq_false_iff]
    intro hbegins
    exact hnot ⟨kind, last, hlast, first, hfirst, hends, hbegins⟩

theorem keepApart_append_cons {front rest right : List Char} {ch : Char} :
    KeepApart (front ++ ch :: rest) right ↔ KeepApart (ch :: rest) right := by
  have hlast : (front ++ ch :: rest).getLast? = (ch :: rest).getLast? :=
    List.getLast?_append_of_ne_nil front (List.cons_ne_nil ch rest)
  simp only [KeepApart, hlast]

namespace Token

/-- The token that two parts of a run make up. -/
def joined (t next : Token) : Token :=
  ⟨t.kind, t.value ++ next.value⟩

theorem RunsInto.kind_joined {t next : Token} (h : t.RunsInto next) :
    (t.joined next).kind = next.kind := by
  rcases h with ⟨ht, hnext⟩ | ⟨ht, hnext⟩
  · exact ht.trans hnext.symm
  · exact ht.trans hnext.symm

theorem RunsInto.joined {t next : Token} (h : t.RunsInto next) (ht : t.WellFormed)
    (hnext : next.WellFormed) :
    (t.joined next).WellFormed ∧ (t.joined next).spelling = t.spelling ++ next.spelling := by
  obtain ⟨kind, value⟩ := t
  obtain ⟨nextKind, nextValue⟩ := next
  rcases h with ⟨rfl, rfl⟩ | ⟨rfl, rfl⟩
  all_goals
    have hrun := isRun_append ht hnext.2
    rw [String.ofList_toList] at hrun
    exact ⟨hrun, by simp [Token.joined, spelling]⟩

end Token

namespace Scans

/-- What a token would go on into begins with a token of the same run. -/
theorem exists_first_token {offset : Nat} {text : List Char} {tokens : List Token}
    {error? : Option LexError} {t : Token} (h : Scans offset text tokens error?)
    (hruns : ¬ EndsRun t.kind.continues text) :
    ∃ next rest back, text = next.spelling ++ rest ∧ tokens = next :: back ∧
      t.RunsInto next ∧ next.WellFormed ∧ EndsRun next.kind.continues rest ∧
      Scans (offset + byteLength next.spelling) rest back error? := by
  cases h with
  | nothing hgap => exact absurd (by simpa using hgap.endsRun t.kind fun _ => endsRun_nil _) hruns
  | @token _ gap rest next back _ hgap hnext hend hrest =>
      obtain ⟨ch, more, hspelling, -, hcontinues⟩ := Token.exists_spelling_eq_cons hnext
      by_cases hinto : t.RunsInto next
      · have hempty : gap = [] := by
          by_contra hne
          exact hruns (hgap.endsRun t.kind fun hnil => absurd hnil hne)
        subst hempty
        exact ⟨next, rest, back, rfl, rfl, hinto, hnext, hend, by simpa using hrest⟩
      · have hbegins : t.kind.continues ch = false := by
          rw [Bool.eq_false_iff, ne_eq, hcontinues t]
          exact hinto
        exact absurd (hgap.endsRun t.kind fun _ => by simpa [hspelling] using hbegins) hruns
  | @foreign _ gap rest ch hgap hch =>
      have hoffends : Offends offset (ch :: rest) _ := .foreign hch
      exact absurd (hgap.endsRun t.kind fun _ => hoffends.endsRun t.kind) hruns
  | @unclosed _ gap rest hgap hquote =>
      have hoffends : Offends offset (Token.quote :: rest) _ := .unclosed hquote
      exact absurd (hgap.endsRun t.kind fun _ => hoffends.endsRun t.kind) hruns

/-- A text that scans to its end is followed by what the next text scans to, with the tokens on both
sides of the seam made one. -/
theorem append_joined {offset : Nat} {left right : List Char} {ts us : List Token}
    {error? : Option LexError} (hleft : Scans offset left ts none)
    (hacross : ¬ KeepApart left right) (hright : Scans (offset + byteLength left) right us error?) :
    ∃ front t next back, ts = front ++ [t] ∧ us = next :: back ∧ t.RunsInto next ∧
      Scans offset (left ++ right) (front ++ t.joined next :: back) error? := by
  generalize hend : (none : Option LexError) = end? at hleft
  induction hleft with
  | @nothing offset gap hgap =>
      have hapart : KeepApart ([] ++ gap) right :=
        hgap.keepApart_append fun _ => by simp [KeepApart]
      exact absurd hapart hacross
  | @token offset gap rest t ts _ hgap ht hrun hscan ih =>
      cases rest with
      | nil =>
          have hruns : ¬ EndsRun t.kind.continues right := by
            intro hends
            apply hacross
            intro kind ch hch hcontinues
            obtain ⟨front, last, hspelling, hlast⟩ := Token.exists_spelling_eq_concat ht
            have hsame : last = ch := by simpa [hspelling, List.getLast?_append] using hch
            rw [← hsame, hlast kind] at hcontinues
            rwa [hcontinues.1]
          obtain ⟨next, rest, back, rfl, rfl, hinto, hnext, hnextEnd, hrest⟩ :=
            hright.exists_first_token hruns
          obtain ⟨hjoined, hspelling⟩ := hinto.joined ht hnext
          refine ⟨[], t, next, back, ?_, rfl, hinto, ?_⟩
          · rw [hscan.tokens_eq_nil, List.nil_append]
          · rw [← hinto.kind_joined] at hnextEnd
            have hmore : Scans (offset + byteLength (gap ++ (t.joined next).spelling)) rest back
                error? := by
              simpa [hspelling, Nat.add_assoc] using hrest
            simpa [hspelling] using token hgap hjoined hnextEnd hmore
      | cons ch rest =>
          have hbehind : ¬ KeepApart (ch :: rest) right := by
            rwa [← List.append_assoc, keepApart_append_cons] at hacross
          have hoffset : offset + byteLength (gap ++ (t.spelling ++ ch :: rest)) =
              offset + byteLength (gap ++ t.spelling) + byteLength (ch :: rest) := by
            simp only [byteLength_append]
            omega
          rw [hoffset] at hright
          obtain ⟨front, last, next, back, rfl, rfl, hinto, hmore⟩ := ih hbehind hright hend
          refine ⟨t :: front, last, next, back, rfl, rfl, hinto, ?_⟩
          have hapart : EndsRun t.kind.continues (ch :: rest ++ right) := by simpa using hrun
          simpa using token hgap ht hapart hmore
  | foreign _ _ => cases hend
  | unclosed _ _ => cases hend

end Scans

namespace Token

section Seam

variable {left right : String} {tokens : List Token}

theorem ofText_append_joined (hleft : Token.ofText left = .ok tokens)
    (hacross : RunsAcross left.toList right.toList) {more : List Token}
    (hright : Token.ofText right = .ok more) :
    ∃ front t next back, tokens = front ++ [t] ∧ more = next :: back ∧ t.RunsInto next ∧
      Token.ofText (left ++ right) = .ok (front ++ t.joined next :: back) := by
  rw [ofText_eq_ok_iff] at hleft hright
  have hnot : ¬ KeepApart left.toList right.toList := by
    rwa [keepApart_iff_not_runsAcross, not_not]
  obtain ⟨front, t, next, back, htokens, hmore, hinto, hscans⟩ :=
    hleft.append_joined hnot (hright.behind left)
  refine ⟨front, t, next, back, htokens, hmore, hinto, ?_⟩
  rw [ofText_eq_ok_iff, String.toList_append]
  exact hscans

/-- The second text fails where it fails alone, whether or not a run goes on into it. -/
theorem ofText_append_error (hleft : Token.ofText left = .ok tokens) {e : LexError}
    (hright : Token.ofText right = .error e) :
    Token.ofText (left ++ right) = .error (e.shift left.utf8ByteSize) := by
  by_cases hapart : KeepApart left.toList right.toList
  · rw [ofText_append hleft hapart, hright]
  · rw [ofText_eq_ok_iff] at hleft
    rw [ofText_eq_error_iff] at hright ⊢
    obtain ⟨more, hmore⟩ := hright
    obtain ⟨front, t, next, back, -, -, -, hscans⟩ :=
      hleft.append_joined hapart (hmore.behind left)
    rw [String.toList_append]
    exact ⟨_, hscans⟩

end Seam

/-- Scanning is compositional. Behind a text that scans, a second text adds its own tokens, or fails
with its own error, moved by the bytes of the first. Only where a number or a name goes on from one
text into the other, the two tokens at the seam become one. Behind a foreign character nothing
counts. -/
theorem ofText_append_compositional (left right : String) :
    (∀ tokens, Token.ofText left = .ok tokens →
      (∀ more, Token.ofText right = .ok more →
        (¬ RunsAcross left.toList right.toList →
          Token.ofText (left ++ right) = .ok (tokens ++ more)) ∧
        (RunsAcross left.toList right.toList →
          ∃ front t next back, tokens = front ++ [t] ∧ more = next :: back ∧ t.RunsInto next ∧
            Token.ofText (left ++ right) = .ok (front ++ t.joined next :: back))) ∧
      ∀ e, Token.ofText right = .error e →
        Token.ofText (left ++ right) = .error (e.shift left.utf8ByteSize)) ∧
    ∀ ch offset, Token.ofText left = .error (.unexpectedCharacter ch offset) →
      Token.ofText (left ++ right) = .error (.unexpectedCharacter ch offset) := by
  refine ⟨?_, ?_⟩
  · intro tokens hleft
    refine ⟨?_, fun e hright => ofText_append_error hleft hright⟩
    intro more hright
    refine ⟨?_, fun hacross => ofText_append_joined hleft hacross hright⟩
    intro hnot
    rw [ofText_append hleft (keepApart_iff_not_runsAcross.mpr hnot), hright]
  · intro ch offset hleft
    exact ofText_append_of_unexpectedCharacter hleft right

/-- The first text is four bytes long: a wide space and a digit. -/
theorem ofText_append_compositional_digits :
    Token.ofText "\u30001" = .ok [⟨.number, "1"⟩] ∧
      Token.ofText ("\u30001" ++ "x") = .ok [⟨.number, "1"⟩, ⟨.name, "x"⟩] ∧
      Token.ofText ("\u30001" ++ "2 x") = .ok [⟨.number, "12"⟩, ⟨.name, "x"⟩] ∧
      Token.ofText ("\u30001" ++ "2é") = .error (.unexpectedCharacter 'é' 5) ∧
      Token.ofText ("é" ++ "2") = .error (.unexpectedCharacter 'é' 0) := by
  have hleft : Token.ofText "\u30001" = .ok [⟨.number, "1"⟩] := by decide +kernel
  have hbehind (right : String) :=
    (ofText_append_compositional "\u30001" right).1 [⟨.number, "1"⟩] hleft
  refine ⟨hleft, ?_, ?_, ?_, ?_⟩
  · refine ((hbehind "x").1 [⟨.name, "x"⟩] (by decide +kernel)).1 ?_
    simp [RunsAcross]
  · have hacross : RunsAcross "\u30001".toList "2 x".toList := by simp [RunsAcross]
    obtain ⟨front, t, next, back, htokens, hmore, -, hjoined⟩ :=
      ((hbehind "2 x").1 [⟨.number, "2"⟩, ⟨.name, "x"⟩] (by decide +kernel)).2 hacross
    obtain ⟨rfl, rfl⟩ : front = [] ∧ t = ⟨.number, "1"⟩ := by
      simpa [List.singleton_eq_append_iff] using htokens
    obtain ⟨rfl, rfl⟩ := List.cons.inj hmore
    exact hjoined
  · exact (hbehind "2é").2 (.unexpectedCharacter 'é' 1) (by decide +kernel)
  · exact (ofText_append_compositional "é" "2").2 'é' 0 (by decide +kernel)

end Token

end CallForms

import CallForms.Token.Scan
import CallForms.Token.Spelling
import Mathlib.Data.List.TakeWhile

/-!
The outcome of a scan, said by cutting the text into pieces.

`Scans` has one rule for each thing that can stand behind a gap: nothing, a token, a foreign
character or a string that no quote closes. It decides every text, and `Scan.continueFrom` answers
what it says, tokens, error and byte offset included.
-/

namespace CallForms

theorem isDigit_iff (ch : Char) : ch.isDigit = true ↔ 48 ≤ ch.toNat ∧ ch.toNat ≤ 57 := by
  simp [Char.isDigit, UInt32.le_iff_toNat_le]

theorem isAlpha_iff (ch : Char) :
    ch.isAlpha = true ↔
      (65 ≤ ch.toNat ∧ ch.toNat ≤ 90) ∨ (97 ≤ ch.toNat ∧ ch.toNat ≤ 122) := by
  change (decide (ch.val ≥ 'A'.val ∧ ch.val ≤ 'Z'.val) ||
    (ch.val ≥ 'a'.val && ch.val ≤ 'z'.val)) = true ↔ _
  simp [UInt32.le_iff_toNat_le]

/-- A character that stands in no token but a string. -/
def isNeutral (ch : Char) : Bool :=
  !ch.isDigit && !ch.isAlpha && ch != '(' && ch != ')' && ch != Token.quote

theorem isNeutral_iff (ch : Char) :
    isNeutral ch = true ↔
      ch.isDigit = false ∧ ch.isAlpha = false ∧ ch ≠ '(' ∧ ch ≠ ')' ∧ ch ≠ Token.quote := by
  simp [isNeutral, and_assoc]

theorem isNeutral_of_isSeparator {ch : Char} (h : isSeparator ch = true) : isNeutral ch = true := by
  have hrange : ch.toNat ≤ 32 ∨ 123 ≤ ch.toNat := by
    simp [isSeparator, isWhiteSpace, whiteSpaceRanges] at h
    omega
  rw [isNeutral_iff]
  refine ⟨?_, ?_, ?_, ?_, ?_⟩
  · rw [Bool.eq_false_iff, ne_eq, isDigit_iff]
    omega
  · rw [Bool.eq_false_iff, ne_eq, isAlpha_iff]
    omega
  · rintro rfl
    simp at hrange
  · rintro rfl
    simp at hrange
  · rintro rfl
    simp [Token.quote] at hrange

/-- A character that neither separates tokens nor begins one. -/
def isForeign (ch : Char) : Bool :=
  !isSeparator ch && isNeutral ch

theorem not_delimiter_of_isDigit {ch : Char} (h : ch.isDigit = true) :
    ch ≠ '(' ∧ ch ≠ ')' ∧ ch ≠ Token.quote := by
  refine ⟨?_, ?_, ?_⟩ <;> rintro rfl <;> simp [Token.quote] at h

theorem not_delimiter_of_isAlpha {ch : Char} (h : ch.isAlpha = true) :
    ch ≠ '(' ∧ ch ≠ ')' ∧ ch ≠ Token.quote ∧ ch.isDigit = false := by
  refine ⟨?_, ?_, ?_, ?_⟩
  · rintro rfl
    simp at h
  · rintro rfl
    simp at h
  · rintro rfl
    simp [Token.quote] at h
  · rw [Bool.eq_false_iff, ne_eq, isDigit_iff]
    rw [isAlpha_iff] at h
    omega

/-- A run of characters that satisfy `p` is over where `rest` begins. -/
def EndsRun (p : Char → Bool) (rest : List Char) : Prop :=
  ∀ ch ∈ rest.head?, p ch = false

@[simp] theorem endsRun_nil (p : Char → Bool) : EndsRun p [] := by
  simp [EndsRun]

@[simp] theorem endsRun_cons (p : Char → Bool) (ch : Char) (rest : List Char) :
    EndsRun p (ch :: rest) ↔ p ch = false := by
  simp [EndsRun]

/-- A run is over in front of a text that has no place in it. -/
theorem endsRun_append {p : Char → Bool} {left rest : List Char}
    (hleft : ∀ ch ∈ left, p ch = false) (hrest : left = [] → EndsRun p rest) :
    EndsRun p (left ++ rest) := by
  cases left with
  | nil => exact hrest rfl
  | cons ch left =>
      rw [List.cons_append, endsRun_cons]
      exact hleft ch (by simp)

theorem takeWhile_run {p : Char → Bool} {run rest : List Char}
    (hrun : ∀ ch ∈ run, p ch = true) (hrest : EndsRun p rest) :
    (run ++ rest).takeWhile p = run := by
  rw [List.takeWhile_append_of_pos hrun]
  cases rest with
  | nil => simp
  | cons ch rest => simp [(endsRun_cons p ch rest).mp hrest]

theorem dropWhile_run {p : Char → Bool} {run rest : List Char}
    (hrun : ∀ ch ∈ run, p ch = true) (hrest : EndsRun p rest) :
    (run ++ rest).dropWhile p = rest := by
  rw [List.dropWhile_append_of_pos hrun]
  cases rest with
  | nil => simp
  | cons ch rest => simp [(endsRun_cons p ch rest).mp hrest]

/-- Every text is a longest run and what comes behind it. -/
theorem exists_run (p : Char → Bool) (text : List Char) :
    ∃ run rest, text = run ++ rest ∧ (∀ ch ∈ run, p ch = true) ∧ EndsRun p rest := by
  refine ⟨text.takeWhile p, text.dropWhile p, ?_, ?_, ?_⟩
  · exact List.takeWhile_append_dropWhile.symm
  · intro ch hch
    exact List.mem_takeWhile_imp hch
  · intro ch hch
    have hhead := List.head?_dropWhile_not p text
    rw [Option.mem_def.mp hch] at hhead
    simpa using hhead

theorem exists_toList_eq_cons {p : Char → Bool} {value : String} (hne : value ≠ "")
    (hrun : ∀ ch ∈ value.toList, p ch = true) :
    ∃ ch more, value.toList = ch :: more ∧ p ch = true := by
  obtain ⟨ch, more, hvalue⟩ := List.exists_cons_of_ne_nil (mt String.toList_eq_nil_iff.mp hne)
  exact ⟨ch, more, hvalue, hrun ch (by simp [hvalue])⟩

namespace Cursor

theorem skipWhile_run {p : Char → Bool} {c : Cursor} {run rest : List Char}
    (hc : c.rest = run ++ rest) (hrun : ∀ ch ∈ run, p ch = true) (hrest : EndsRun p rest) :
    (c.skipWhile p).rest = rest ∧ (c.skipWhile p).offset = c.offset + byteLength run := by
  simp only [skipWhile, hc]
  rw [takeWhile_run hrun hrest, dropWhile_run hrun hrest]
  exact ⟨rfl, rfl⟩

theorem advance_cons {c : Cursor} {ch : Char} {rest : List Char} (hc : c.rest = ch :: rest) :
    c.advance.rest = rest ∧ c.advance.offset = c.offset + ch.utf8Size := by
  unfold advance
  split
  · simp_all
  · simp_all

theorem peek?_cons {c : Cursor} {ch : Char} {rest : List Char} (hc : c.rest = ch :: rest) :
    c.peek? = some ch := by
  simp [peek?, hc]

end Cursor

/-- The characters that a token of this kind would take in if they stood right behind it. -/
def TokenKind.continues : TokenKind → Char → Bool
  | number, ch => ch.isDigit
  | name, ch => ch.isAlpha
  | paren, _ | string, _ => false

@[simp] theorem endsRun_paren (rest : List Char) : EndsRun TokenKind.paren.continues rest := by
  simp [EndsRun, TokenKind.continues]

@[simp] theorem endsRun_string (rest : List Char) : EndsRun TokenKind.string.continues rest := by
  simp [EndsRun, TokenKind.continues]

namespace Token

section Start

variable {c : Cursor} {ch : Char} {rest : List Char}

theorem start_open (hc : c.rest = '(' :: rest) : start c = .token openParen c.advance := by
  simp [start, Cursor.peek?_cons hc]

theorem start_close (hc : c.rest = ')' :: rest) : start c = .token closeParen c.advance := by
  simp [start, Cursor.peek?_cons hc]

theorem start_quote (hc : c.rest = quote :: rest) : start c = quoted c := by
  simp [start, Cursor.peek?_cons hc, quote]

theorem start_digit (hc : c.rest = ch :: rest) (h : ch.isDigit = true) :
    start c = munched .number Char.isDigit c := by
  obtain ⟨hopen, hclose, hquote⟩ := not_delimiter_of_isDigit h
  simp [start, Cursor.peek?_cons hc, hopen, hclose, hquote, h]

theorem start_alpha (hc : c.rest = ch :: rest) (h : ch.isAlpha = true) :
    start c = munched .name Char.isAlpha c := by
  obtain ⟨hopen, hclose, hquote, hdigit⟩ := not_delimiter_of_isAlpha h
  simp [start, Cursor.peek?_cons hc, hopen, hclose, hquote, hdigit, h]

theorem start_foreign (hc : c.rest = ch :: rest) (h : isForeign ch = true) :
    start c = .error (.unexpectedCharacter ch c.offset) := by
  simp only [isForeign, Bool.and_eq_true, isNeutral_iff] at h
  obtain ⟨-, hdigit, halpha, hopen, hclose, hquote⟩ := h
  simp [start, Cursor.peek?_cons hc, hopen, hclose, hquote, hdigit, halpha]

theorem munched_run {kind : TokenKind} {p : Char → Bool} {value : String}
    (hc : c.rest = value.toList ++ rest) (hrun : ∀ ch ∈ value.toList, p ch = true)
    (hrest : EndsRun p rest) :
    ∃ behind, munched kind p c = .token ⟨kind, value⟩ behind ∧ behind.rest = rest ∧
      behind.offset = c.offset + byteLength value.toList := by
  refine ⟨c.skipWhile p, ?_, Cursor.skipWhile_run hc hrun hrest⟩
  simp [munched, hc, takeWhile_run hrun hrest]

theorem bne_quote_of_notMem {value : List Char} (h : quote ∉ value) :
    ∀ ch ∈ value, (ch != quote) = true := by
  intro ch hch
  simpa using ne_of_mem_of_not_mem hch h

/-- Behind the opening quote the cursor stops at the next quote. -/
theorem contents_run {value : List Char} (hc : c.rest = quote :: (value ++ rest))
    (hvalue : quote ∉ value) (hrest : EndsRun (· != quote) rest) :
    (c.advance.munch (· != quote)).1 = String.ofList value ∧
      (c.advance.munch (· != quote)).2.rest = rest ∧
      (c.advance.munch (· != quote)).2.offset =
        c.offset + byteLength (quote :: value) := by
  obtain ⟨hinner, hoffset⟩ := Cursor.advance_cons hc
  have hrun := bne_quote_of_notMem hvalue
  obtain ⟨hbehind, hend⟩ := Cursor.skipWhile_run hinner hrun hrest
  refine ⟨?_, hbehind, ?_⟩
  · simp [hinner, takeWhile_run hrun hrest]
  · rw [Cursor.munch_snd, hend, hoffset, byteLength_cons]
    omega

theorem quoted_closed {value : String} (hc : c.rest = quote :: (value.toList ++ quote :: rest))
    (hvalue : quote ∉ value.toList) :
    ∃ behind, quoted c = .token ⟨.string, value⟩ behind ∧ behind.rest = rest ∧
      behind.offset = c.offset + byteLength (quote :: (value.toList ++ [quote])) := by
  obtain ⟨hvalue, hbehind, hoffset⟩ := contents_run hc hvalue (by simp)
  obtain ⟨hlast, hend⟩ := Cursor.advance_cons hbehind
  refine ⟨(c.advance.munch (· != quote)).2.advance, ?_, hlast, ?_⟩
  · simp only [quoted, Cursor.peek?_cons hbehind, hvalue, String.ofList_toList]
  · rw [hend, hoffset]
    simp
    omega

theorem quoted_open (hc : c.rest = quote :: rest) (hrest : quote ∉ rest) :
    quoted c = .error (.unterminatedString c.offset) := by
  have hall : c.rest = quote :: (rest ++ []) := by simpa using hc
  obtain ⟨-, hbehind, -⟩ := contents_run hall hrest (endsRun_nil _)
  simp only [quoted, Cursor.peek?, hbehind, List.head?_nil]

/-- A cursor in front of a well-formed token that nothing continues finds that token. -/
theorem start_spelling {t : Token} (ht : t.WellFormed) (hc : c.rest = t.spelling ++ rest)
    (hrest : EndsRun t.kind.continues rest) :
    ∃ behind, start c = .token t behind ∧ behind.rest = rest ∧
      behind.offset = c.offset + byteLength t.spelling := by
  obtain ⟨kind, value⟩ := t
  cases kind with
  | paren =>
      rcases ht with rfl | rfl
      · exact ⟨c.advance, start_open hc, Cursor.advance_cons hc⟩
      · exact ⟨c.advance, start_close hc, Cursor.advance_cons hc⟩
  | string =>
      have hquote : c.rest = quote :: (value.toList ++ quote :: rest) := by
        simpa [spelling] using hc
      rw [start_quote hquote]
      exact quoted_closed hquote ht
  | number =>
      obtain ⟨hne, hdigits⟩ := ht
      obtain ⟨ch, more, hvalue, hdigit⟩ := exists_toList_eq_cons hne hdigits
      have hfirst : c.rest = ch :: (more ++ rest) := by simpa [spelling, hvalue] using hc
      rw [start_digit hfirst hdigit]
      exact munched_run hc hdigits hrest
  | name =>
      obtain ⟨hne, hletters⟩ := ht
      obtain ⟨ch, more, hvalue, halpha⟩ := exists_toList_eq_cons hne hletters
      have hfirst : c.rest = ch :: (more ++ rest) := by simpa [spelling, hvalue] using hc
      rw [start_alpha hfirst halpha]
      exact munched_run hc hletters hrest

end Start

/-- The first character of a token: it separates nothing, and a token in front of it goes on into
it just when the two run together. -/
theorem exists_spelling_eq_cons {t : Token} (ht : t.WellFormed) :
    ∃ ch more, t.spelling = ch :: more ∧ isSeparator ch = false ∧
      ∀ before : Token, before.kind.continues ch = true ↔ before.RunsInto t := by
  have hsep {ch : Char} (h : ch.isDigit = true ∨ ch.isAlpha = true ∨ ch = '(' ∨ ch = ')' ∨
      ch = quote) : isSeparator ch = false := by
    rw [Bool.eq_false_iff]
    intro hch
    have hneutral := isNeutral_of_isSeparator hch
    rw [isNeutral_iff] at hneutral
    simp_all
  obtain ⟨kind, value⟩ := t
  cases kind with
  | paren =>
      rcases ht with rfl | rfl
      · refine ⟨'(', [], rfl, hsep (by simp), ?_⟩
        rintro ⟨before, _⟩
        cases before <;> simp [TokenKind.continues, RunsInto]
      · refine ⟨')', [], rfl, hsep (by simp), ?_⟩
        rintro ⟨before, _⟩
        cases before <;> simp [TokenKind.continues, RunsInto]
  | string =>
      refine ⟨quote, value.toList ++ [quote], rfl, hsep (by simp), ?_⟩
      rintro ⟨before, _⟩
      cases before <;> simp [TokenKind.continues, RunsInto, quote]
  | number =>
      obtain ⟨hne, hdigits⟩ := ht
      obtain ⟨ch, more, hvalue, hdigit⟩ := exists_toList_eq_cons hne hdigits
      have halpha : ch.isAlpha = false := by
        rw [Bool.eq_false_iff]
        intro h
        simp [(not_delimiter_of_isAlpha h).2.2.2] at hdigit
      refine ⟨ch, more, hvalue, hsep (by simp [hdigit]), ?_⟩
      rintro ⟨before, _⟩
      cases before <;> simp [TokenKind.continues, RunsInto, hdigit, halpha]
  | name =>
      obtain ⟨hne, hletters⟩ := ht
      obtain ⟨ch, more, hvalue, halpha⟩ := exists_toList_eq_cons hne hletters
      have hdigit : ch.isDigit = false := (not_delimiter_of_isAlpha halpha).2.2.2
      refine ⟨ch, more, hvalue, hsep (by simp [halpha]), ?_⟩
      rintro ⟨before, _⟩
      cases before <;> simp [TokenKind.continues, RunsInto, hdigit, halpha]

/-- The longest run in front is not empty if the first character belongs to it. -/
theorem exists_munched {ch : Char} {rest : List Char} {p : Char → Bool} (h : p ch = true) :
    ∃ value behind, ch :: rest = String.toList value ++ behind ∧ value ≠ "" ∧
      (∀ ch ∈ value.toList, p ch = true) ∧ EndsRun p behind := by
  obtain ⟨run, behind, htext, hrun, hend⟩ := exists_run p (ch :: rest)
  refine ⟨String.ofList run, behind, by simpa using htext, ?_, by simpa using hrun, hend⟩
  rintro hempty
  have hnil : run = [] := by simpa using hempty
  simp only [hnil, List.nil_append] at htext
  simp [← htext, h] at hend

/-- A character that separates nothing is foreign, opens a string without end or begins a token. -/
theorem exists_spelling {ch : Char} (rest : List Char) (hch : isSeparator ch = false) :
    isForeign ch = true ∨ (ch = quote ∧ quote ∉ rest) ∨
      ∃ (t : Token) (behind : List Char), t.WellFormed ∧ ch :: rest = t.spelling ++ behind ∧
        EndsRun t.kind.continues behind := by
  by_cases hopen : ch = '('
  · exact .inr (.inr ⟨openParen, rest, .inl rfl, by simp [hopen, spelling, openParen],
      endsRun_paren rest⟩)
  by_cases hclose : ch = ')'
  · exact .inr (.inr ⟨closeParen, rest, .inr rfl, by simp [hclose, spelling, closeParen],
      endsRun_paren rest⟩)
  by_cases hquote : ch = quote
  · by_cases hmore : quote ∈ rest
    · obtain ⟨value, behind, rfl, hvalue⟩ := List.eq_append_cons_of_mem hmore
      refine .inr (.inr ⟨⟨.string, String.ofList value⟩, behind, ?_, ?_, ?_⟩)
      · simpa [WellFormed] using hvalue
      · simp [hquote, spelling]
      · exact endsRun_string behind
    · exact .inr (.inl ⟨hquote, hmore⟩)
  cases hdigit : ch.isDigit with
  | true =>
      obtain ⟨value, behind, htext, hne, hrun, hend⟩ := exists_munched hdigit
      exact .inr (.inr ⟨⟨.number, value⟩, behind, ⟨hne, hrun⟩, htext, hend⟩)
  | false =>
      cases halpha : ch.isAlpha with
      | true =>
          obtain ⟨value, behind, htext, hne, hrun, hend⟩ := exists_munched halpha
          exact .inr (.inr ⟨⟨.name, value⟩, behind, ⟨hne, hrun⟩, htext, hend⟩)
      | false =>
          exact .inl (by simp [isForeign, isNeutral, hch, hdigit, halpha, hopen, hclose, hquote])

end Token

/-- Scanning the text finds the tokens and then ends, with the error if there is one. The text
begins at byte `offset`. -/
inductive Scans : (offset : Nat) → List Char → List Token → Option LexError → Prop where
  | nothing {offset : Nat} {gap : List Char} : IsGap gap → Scans offset gap [] none
  | token {offset : Nat} {gap rest : List Char} {t : Token} {ts : List Token}
      {error? : Option LexError} :
      IsGap gap → t.WellFormed → EndsRun t.kind.continues rest →
      Scans (offset + byteLength (gap ++ t.spelling)) rest ts error? →
      Scans offset (gap ++ (t.spelling ++ rest)) (t :: ts) error?
  | foreign {offset : Nat} {gap rest : List Char} {ch : Char} :
      IsGap gap → isForeign ch = true →
      Scans offset (gap ++ ch :: rest) []
        (some (.unexpectedCharacter ch (offset + byteLength gap)))
  | unclosed {offset : Nat} {gap rest : List Char} :
      IsGap gap → Token.quote ∉ rest →
      Scans offset (gap ++ Token.quote :: rest) []
        (some (.unterminatedString (offset + byteLength gap)))

namespace Scan

section Continue

variable {c : Cursor} {found : Array Token}

theorem continueFrom_nothing (h : Token.next c = .nothing) :
    continueFrom c found = ⟨found.toList, none⟩ := by
  rw [continueFrom]
  split <;> simp_all

theorem continueFrom_error {e : LexError} (h : Token.next c = .error e) :
    continueFrom c found = ⟨found.toList, some e⟩ := by
  rw [continueFrom]
  split <;> simp_all

theorem continueFrom_token {t : Token} {behind : Cursor} (h : Token.next c = .token t behind) :
    continueFrom c found = continueFrom behind (found.push t) := by
  rw [continueFrom]
  split <;> simp_all

end Continue

end Scan

namespace Scans

/-- The scanner finds what the rules say. -/
theorem continueFrom_eq {offset : Nat} {text : List Char} {tokens : List Token}
    {error? : Option LexError} (h : Scans offset text tokens error?) :
    ∀ (c : Cursor) (found : Array Token), c.rest = text → c.offset = offset →
      Scan.continueFrom c found = ⟨found.toList ++ tokens, error?⟩ := by
  induction h with
  | @nothing offset gap hgap =>
      intro c found hrest _
      have hall : c.rest = gap ++ [] := by rw [List.append_nil, hrest]
      obtain ⟨hskip, -⟩ := Cursor.skipWhile_run hall hgap (endsRun_nil _)
      have hnext : Token.next c = .nothing := by
        simp [Token.next, Token.start, Cursor.peek?, hskip]
      simp [Scan.continueFrom_nothing hnext]
  | @token offset gap rest t ts error? hgap ht hend _ ih =>
      intro c found hrest hoffset
      obtain ⟨ch, more, hspelling, hch, -⟩ := Token.exists_spelling_eq_cons ht
      obtain ⟨hskip, hskipped⟩ := Cursor.skipWhile_run hrest hgap (by simp [hspelling, hch])
      obtain ⟨behind, hnext, hbehind, hpassed⟩ := Token.start_spelling ht hskip hend
      have hadd : behind.offset = offset + byteLength (gap ++ t.spelling) := by
        rw [hpassed, hskipped, hoffset, byteLength_append, Nat.add_assoc]
      rw [Scan.continueFrom_token hnext, ih behind _ hbehind hadd]
      simp
  | @foreign offset gap rest ch hgap hch =>
      intro c found hrest hoffset
      have hsep : isSeparator ch = false := by
        simp only [isForeign, Bool.and_eq_true, Bool.not_eq_true'] at hch
        exact hch.1
      obtain ⟨hskip, hskipped⟩ := Cursor.skipWhile_run hrest hgap (by simp [hsep])
      rw [Scan.continueFrom_error (Token.start_foreign hskip hch), hskipped, hoffset]
      simp
  | unclosed hgap hquote =>
      intro c found hrest hoffset
      obtain ⟨hskip, hskipped⟩ := Cursor.skipWhile_run hrest hgap (by simp [Token.quote]; decide)
      have hnext : Token.next c = .error (.unterminatedString (c.skipWhile isSeparator).offset) :=
        (Token.start_quote hskip).trans (Token.quoted_open hskip hquote)
      rw [Scan.continueFrom_error hnext, hskipped, hoffset]
      simp

/-- Only well-formed tokens are found. -/
theorem wellFormed {offset : Nat} {text : List Char} {tokens : List Token}
    {error? : Option LexError} (h : Scans offset text tokens error?) :
    ∀ t ∈ tokens, t.WellFormed := by
  induction h with
  | nothing _ => simp
  | token _ ht _ _ ih => exact List.forall_mem_cons.mpr ⟨ht, ih⟩
  | foreign _ _ => simp
  | unclosed _ _ => simp

/-- The rules decide every text. -/
theorem exists_scans (text : List Char) (offset : Nat) :
    ∃ tokens error?, Scans offset text tokens error? := by
  induction hlength : text.length using Nat.strongRecOn generalizing text offset with
  | ind length ih =>
      obtain ⟨gap, rest, rfl, hgap, hend⟩ := exists_run isSeparator text
      cases rest with
      | nil => exact ⟨[], none, by simpa using nothing hgap⟩
      | cons ch rest =>
          have hch := (endsRun_cons _ _ _).mp hend
          rcases Token.exists_spelling rest hch with
            hforeign | ⟨rfl, hquote⟩ | ⟨t, behind, ht, htext, hbehind⟩
          · exact ⟨[], _, foreign hgap hforeign⟩
          · exact ⟨[], _, unclosed hgap hquote⟩
          · obtain ⟨_, more, hspelling, -, -⟩ := Token.exists_spelling_eq_cons ht
            have hshorter : behind.length < length := by
              rw [← hlength, htext, hspelling]
              simp
              omega
            obtain ⟨ts, error?, hscan⟩ :=
              ih _ hshorter behind (offset + byteLength (gap ++ t.spelling)) rfl
            exact ⟨t :: ts, error?, htext ▸ token hgap ht hbehind hscan⟩

end Scans

/-- A scan ends the way the rules say, and in no other. -/
theorem Scan.ofText_eq_iff (text : String) (tokens : List Token) (error? : Option LexError) :
    Scan.ofText text = ⟨tokens, error?⟩ ↔ Scans 0 text.toList tokens error? := by
  have hfollows {tokens : List Token} {error? : Option LexError}
      (h : Scans 0 text.toList tokens error?) : Scan.ofText text = ⟨tokens, error?⟩ := by
    simpa [Scan.ofText] using h.continueFrom_eq (.ofText text) #[] rfl rfl
  refine ⟨?_, hfollows⟩
  intro hscan
  obtain ⟨found, end?, h⟩ := Scans.exists_scans text.toList 0
  have hsame := hscan.symm.trans (hfollows h)
  simp only [Scan.mk.injEq] at hsame
  rwa [hsame.1, hsame.2]

theorem Token.ofText_eq_ok_iff (text : String) (tokens : List Token) :
    Token.ofText text = .ok tokens ↔ Scans 0 text.toList tokens none := by
  rw [← Scan.ofText_eq_iff]
  cases hscan : Scan.ofText text with
  | mk found end? => cases end? <;> simp [Token.ofText, Scan.result, hscan]

end CallForms

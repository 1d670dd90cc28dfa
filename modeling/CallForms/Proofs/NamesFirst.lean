import CallForms.Proofs.Spelling
import CallForms.Proofs.Unambiguity

/-!
Compiled text scans to the tokens of its source, with the name of each call in front of the opening
parenthesis.

The tokens that the text of a form is made of are read off the form. On one side they are the tokens
the form was derived from, with the names first; on the other side the text spells them, if the
separators of the layout are gaps. A number is spelled only where no digit follows, so what is said
of a form's text is said in front of any text that does not begin with a digit.
-/

namespace CallForms

/-- The separators are gaps, and those that keep neighbours apart are there. -/
structure Layout.Spaces (layout : Layout) : Prop where
  argument_ne : layout.argumentSeparator ≠ ""
  argument_gap : IsGap layout.argumentSeparator.toList
  terminator_gap : IsGap layout.statementTerminator.toList
  line_ne : layout.lineSeparator ≠ ""
  line_gap : IsGap layout.lineSeparator.toList

namespace Token

theorem namesFirst_cons {t : Token} (ht : t ≠ openParen) (ts : List Token) :
    namesFirst (t :: ts) = t :: namesFirst ts := by
  cases ts with
  | nil => simp [namesFirst]
  | cons next ts => simp [namesFirst, ht]

theorem namesFirst_call {name : Token} (hname : name.kind = .name) (ts : List Token) :
    namesFirst (openParen :: name :: ts) = name :: openParen :: namesFirst ts := by
  simp [namesFirst, hname]

end Token

namespace Form

mutual

/-- The tokens of a form's text. -/
def callTokens : Form → List Token
  | number value => [⟨.number, value⟩]
  | string value => [⟨.string, value⟩]
  | call name params => ⟨.name, name⟩ :: .openParen :: (callTokensAll params ++ [.closeParen])

def callTokensAll : List Form → List Token
  | [] => []
  | form :: rest => form.callTokens ++ callTokensAll rest

end

theorem callTokensAll_eq_flatMap (forms : List Form) :
    callTokensAll forms = forms.flatMap callTokens := by
  induction forms with
  | nil => rfl
  | cons form rest ih => simp [callTokensAll, ih]

end Form

mutual

/-- Putting the names first turns the tokens of a form into those of its text. -/
theorem Derives.namesFirst_append {tokens : List Token} {form : Form} :
    Derives true tokens form → ∀ rest : List Token,
      Token.namesFirst (tokens ++ rest) = form.callTokens ++ Token.namesFirst rest
  | .number value, rest => Token.namesFirst_cons (by simp [Token.openParen]) rest
  | .string value, rest => Token.namesFirst_cons (by simp [Token.openParen]) rest
  | @Derives.call _ ⟨kind, value⟩ tokens params hname hparams, rest => by
      cases (hname rfl : kind = .name)
      have hclose : Token.closeParen ≠ Token.openParen := by decide
      have hinner := hparams.namesFirst_append (.closeParen :: rest)
      rw [Token.namesFirst_cons hclose] at hinner
      simp only [List.cons_append, List.append_assoc, List.nil_append]
      rw [Token.namesFirst_call rfl, hinner]
      simp [Form.callTokens]

theorem DerivesAll.namesFirst_append {tokens : List Token} {forms : List Form} :
    DerivesAll true tokens forms → ∀ rest : List Token,
      Token.namesFirst (tokens ++ rest) = Form.callTokensAll forms ++ Token.namesFirst rest
  | .nil, rest => by simp [Form.callTokensAll]
  | .cons hform hforms, rest => by
      rw [List.append_assoc, hform.namesFirst_append, hforms.namesFirst_append]
      simp [Form.callTokensAll]

end

theorem Spells.gap_append {gap text : List Char} {tokens : List Token} (hgap : IsGap gap)
    (h : Spells tokens text) : Spells tokens (gap ++ text) := by
  cases h with
  | nothing hmore => exact .nothing (hgap.append hmore)
  | last hmore ht htail =>
      rw [← List.append_assoc, ← List.append_assoc]
      exact .last (hgap.append hmore) ht htail
  | more hmore ht hbetween hruns hrest =>
      have hall := Spells.more (hgap.append hmore) ht hbetween hruns hrest
      simpa using hall

/-- The text spells the tokens in front of any spelling that does not begin with a digit. -/
def SpellsInFront (tokens : List Token) (text : List Char) : Prop :=
  ∀ ts rest, EndsRun TokenKind.number.continues rest → Spells ts rest →
    Spells (tokens ++ ts) (text ++ rest)

namespace SpellsInFront

/-- A token that is not a name goes on in digits at most. -/
theorem token {t : Token} (ht : t.WellFormed) (hname : t.kind ≠ .name) :
    SpellsInFront [t] t.spelling := by
  intro ts rest hrest hspells
  have hend : EndsRun t.kind.continues rest := by
    cases hkind : t.kind with
    | number => exact hrest
    | name => exact absurd hkind hname
    | paren => exact endsRun_paren rest
    | string => exact endsRun_string rest
  simpa using Spells.cons isGap_nil ht hend hspells

theorem append_gap {tokens : List Token} {text gap : List Char} (h : SpellsInFront tokens text)
    (hgap : IsGap gap) : SpellsInFront tokens (text ++ gap) := by
  intro ts rest hrest hspells
  have hend : EndsRun TokenKind.number.continues (gap ++ rest) := hgap.endsRun _ fun _ => hrest
  have hmore : Spells ts (gap ++ rest) := hspells.gap_append hgap
  simpa using h ts (gap ++ rest) hend hmore

section Items

variable {α : Type} {tokens : α → List Token} {text : α → List Char} {separator : List Char}
  {items : List α}

/-- Items that each have a gap in front are spelled one after the other. -/
theorem separated (hgap : IsGap separator) (hne : separator ≠ [])
    (h : ∀ item ∈ items, SpellsInFront (tokens item) (text item)) {ts : List Token}
    {rest : List Char} (hrest : EndsRun TokenKind.number.continues rest)
    (hspells : Spells ts rest) :
    EndsRun TokenKind.number.continues
        (items.flatMap (fun item => separator ++ text item) ++ rest) ∧
      Spells (items.flatMap tokens ++ ts)
        (items.flatMap (fun item => separator ++ text item) ++ rest) := by
  induction items with
  | nil => exact ⟨hrest, hspells⟩
  | cons item items ih =>
      rw [List.forall_mem_cons] at h
      obtain ⟨hend, hmore⟩ := ih h.2
      have hitem := h.1 _ _ hend hmore
      simp only [List.flatMap_cons, List.append_assoc]
      refine ⟨?_, hitem.gap_append hgap⟩
      apply hgap.endsRun
      intro hempty
      exact absurd hempty hne

theorem intercalate (hgap : IsGap separator) (hne : separator ≠ [])
    (h : ∀ item ∈ items, SpellsInFront (tokens item) (text item)) :
    SpellsInFront (items.flatMap tokens) (separator.intercalate (items.map text)) := by
  intro ts rest hrest hspells
  cases items with
  | nil => simpa using hspells
  | cons first items =>
      rw [List.forall_mem_cons] at h
      obtain ⟨hend, hmore⟩ := separated hgap hne h.2 hrest hspells
      rw [intercalate_map_cons, List.flatMap_cons, List.append_assoc, List.append_assoc]
      exact h.1 _ _ hend hmore

end Items

end SpellsInFront

namespace Form.WellFormed

variable {layout : Layout} {form : Form}

theorem spellsInFront_callChars (hlayout : layout.Spaces) (h : form.WellFormed) :
    SpellsInFront form.callTokens (form.callChars layout) := by
  induction form with
  | number value =>
      cases h with
      | number ht =>
          rw [callChars_number]
          exact .token ht (by simp)
  | string value =>
      cases h with
      | string ht =>
          rw [callChars_string]
          exact .token ht (by simp)
  | call name params ih =>
      cases h with
      | call hname hparams =>
          intro ts rest _ hspells
          have hparam : ∀ param ∈ params, SpellsInFront param.callTokens (param.callChars layout) :=
            fun param hmem => ih param hmem (hparams param hmem)
          have hne := mt String.toList_eq_nil_iff.mp hlayout.argument_ne
          have hopens : Token.openParen.WellFormed := .inl rfl
          have hcloses : Token.closeParen.WellFormed := .inr rfl
          -- The text is put together from its end: each part is spelled in front of the last one.
          have hclose : Spells (.closeParen :: ts) (')' :: rest) :=
            .cons isGap_nil hcloses (endsRun_paren rest) hspells
          have hinner := SpellsInFront.intercalate hlayout.argument_gap hne hparam _ _
            (by simp [TokenKind.continues]) hclose
          have hopen := Spells.cons isGap_nil hopens (endsRun_paren _) hinner
          have hcall := Spells.cons isGap_nil hname
            (by simp [Token.spelling, Token.openParen, TokenKind.continues]) hopen
          simpa [callTokens, callTokensAll_eq_flatMap, callChars_call, Token.spelling,
            Token.openParen] using hcall

theorem spellsInFront_lineChars (hlayout : layout.Spaces) (h : form.WellFormed) :
    SpellsInFront form.callTokens (form.lineChars layout) := by
  rw [lineChars_eq_append]
  apply (h.spellsInFront_callChars hlayout).append_gap
  intro ch hch
  exact hlayout.terminator_gap ch (mem_terminator_of_mem_lineEnd hch)

end Form.WellFormed

/-- In strict mode, and with gaps for separators, compiled text scans. Its tokens are those of the
source, but for each name and the opening parenthesis in front of it, which change places. -/
theorem compile_scans_namesFirst {config : Config} (hstrict : config.strictCallee = true)
    (hlayout : config.toLayout.Spaces) {text output : String}
    (h : compile config text = .ok output) :
    ∃ tokens, Token.ofText text = .ok tokens ∧
      Token.ofText output = .ok (Token.namesFirst tokens) := by
  rw [compile_eq_ok_iff, hstrict] at h
  obtain ⟨program, hreads, rfl⟩ := h
  have hforms := hreads.wellFormed
  obtain ⟨tokens, hscan, hread⟩ := hreads
  have htokens : Token.namesFirst tokens = program.body.flatMap Form.callTokens := by
    have hnames := (Program.derivesAll_of_ofTokens hread).namesFirst_append []
    simpa [Token.namesFirst, Form.callTokensAll_eq_flatMap] using hnames
  have hne := mt String.toList_eq_nil_iff.mp hlayout.line_ne
  have hnothing : Spells [] [] := .nothing isGap_nil
  have hspells := SpellsInFront.intercalate hlayout.line_gap hne
    (fun form hform => (hforms form hform).spellsInFront_lineChars hlayout) _ _
    (endsRun_nil _) hnothing
  refine ⟨tokens, hscan, ?_⟩
  rw [Token.ofText_eq_ok_iff, htokens, Program.toList_callText]
  simpa using hspells.scans 0

/-- Two numbers in a call, a call without arguments and a string that looks like one, under a
layout with an empty terminator. -/
theorem compile_scans_namesFirst_blank :
    Layout.Spaces ⟨" ", "", "\u3000"⟩ ∧
      compile ⟨⟨" ", "", "\u3000"⟩, true⟩ "(f 1 2(g)\") (h\")3" =
        .ok "f(1 2 g() \") (h\")\u30003" ∧
      ∃ tokens, Token.ofText "(f 1 2(g)\") (h\")3" = .ok tokens ∧
        Token.ofText "f(1 2 g() \") (h\")\u30003" = .ok (Token.namesFirst tokens) := by
  have hlayout : Layout.Spaces ⟨" ", "", "\u3000"⟩ := by
    refine ⟨by decide, ?_, by simp, by decide, ?_⟩
    · simp
      decide
    · simp
      decide
  have h : compile ⟨⟨" ", "", "\u3000"⟩, true⟩ "(f 1 2(g)\") (h\")3" =
      .ok "f(1 2 g() \") (h\")\u30003" := by
    simp only [compile_eq_result_ofTokens, Compilation.result_ofTokens]
    decide +kernel
  exact ⟨hlayout, h, compile_scans_namesFirst rfl hlayout h⟩

end CallForms

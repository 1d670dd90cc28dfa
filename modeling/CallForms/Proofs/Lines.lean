import CallForms.Proofs.Lowered
import CallForms.Proofs.Unambiguity
import Mathlib.Data.List.Forall2

/-!
Every form of a program has a line of the output to itself.

The lines are found again by cutting the output at the line separator, if that is one character
which nothing else in the output can hold. That it stands in no line is followed from the tokens
through the forms to their texts. No mode is assumed: a call may be named by a string, a number or a
parenthesis.
-/

namespace CallForms

/-- The line separator is one character, which stands in no token but a string and in neither of the
other separators. -/
structure Layout.BreaksLinesAt (layout : Layout) (mark : Char) : Prop where
  line_eq : layout.lineSeparator = String.singleton mark
  neutral : isNeutral mark = true
  argument : mark ∉ layout.argumentSeparator.toList
  terminator : mark ∉ layout.statementTerminator.toList

theorem notMem_intercalate {α : Type} {mark : α} {separator : List α} {items : List (List α)}
    (hseparator : mark ∉ separator) (hitems : ∀ item ∈ items, mark ∉ item) :
    mark ∉ separator.intercalate items := by
  induction items with
  | nil => simp
  | cons item rest ih =>
      rw [List.forall_mem_cons] at hitems
      cases rest with
      | nil => simpa using hitems.1
      | cons next rest =>
          have hrest := ih hitems.2
          rw [List.intercalate_cons_cons]
          simp only [List.mem_append, not_or]
          exact ⟨⟨hitems.1, hseparator⟩, hrest⟩

/-- Only a string can hold a neutral character. -/
theorem Token.WellFormed.notMem_value {t : Token} {mark : Char} (ht : t.WellFormed)
    (hmark : isNeutral mark = true) (hstring : t.kind = .string → mark ∉ t.value.toList) :
    mark ∉ t.value.toList := by
  obtain ⟨hdigit, halpha, hopen, hclose, -⟩ := (isNeutral_iff mark).mp hmark
  obtain ⟨kind, value⟩ := t
  cases kind with
  | paren =>
      rcases ht with rfl | rfl
      · simpa using hopen
      · simpa using hclose
  | string => exact hstring rfl
  | number =>
      intro hmem
      simp [ht.2 mark hmem] at hdigit
  | name =>
      intro hmem
      simp [ht.2 mark hmem] at halpha

namespace Form

/-- The character stands in no payload of the form. -/
inductive Lacks (mark : Char) : Form → Prop where
  | number {value : String} : mark ∉ value.toList → Lacks mark (number value)
  | string {value : String} : mark ∉ value.toList → Lacks mark (string value)
  | call {name : String} {params : List Form} :
      mark ∉ name.toList → (∀ param ∈ params, Lacks mark param) → Lacks mark (call name params)

/-- What can be said of the line of a form by looking at its kind: a literal stands there bare, and
a call ends with its parenthesis and the terminator. -/
inductive HasLine (layout : Layout) : Form → String → Prop where
  | number (value : String) : HasLine layout (number value) value
  | string (value : String) : HasLine layout (string value) ("\"" ++ value ++ "\"")
  | call (name : String) (params : List Form) (front : String) :
      HasLine layout (call name params) (front ++ ")" ++ layout.statementTerminator)

theorem hasLine_lineText (layout : Layout) (form : Form) :
    form.HasLine layout (form.lineText layout) := by
  cases form with
  | number value =>
      rw [lineText, kind, callText]
      exact .number value
  | string value =>
      rw [lineText, kind, callText]
      exact .string value
  | call name params =>
      rw [lineText, kind, callText]
      exact .call name params _

end Form

mutual

theorem Derives.lacks {strict : Bool} {mark : Char} {tokens : List Token} {form : Form} :
    Derives strict tokens form → (∀ t ∈ tokens, mark ∉ t.value.toList) → form.Lacks mark
  | .number value, ht => .number (ht ⟨.number, value⟩ (by simp))
  | .string value, ht => .string (ht ⟨.string, value⟩ (by simp))
  | @Derives.call _ name tokens params _ hparams, ht => by
      refine .call (ht name (by simp)) (hparams.lacks ?_)
      intro t hmem
      exact ht t (by simp [hmem])

/-- Forms hold no other characters than the tokens they were read from. -/
theorem DerivesAll.lacks {strict : Bool} {mark : Char} {tokens : List Token} {forms : List Form} :
    DerivesAll strict tokens forms → (∀ t ∈ tokens, mark ∉ t.value.toList) →
      ∀ form ∈ forms, form.Lacks mark
  | .nil, _ => by simp
  | .cons hform hforms, ht => by
      rw [List.forall_mem_append] at ht
      rw [List.forall_mem_cons]
      exact ⟨hform.lacks ht.1, hforms.lacks ht.2⟩

end

namespace Form

variable {layout : Layout} {mark : Char} {form : Form}

theorem Lacks.notMem_callChars (hlayout : layout.BreaksLinesAt mark) (h : form.Lacks mark) :
    mark ∉ form.callChars layout := by
  obtain ⟨-, -, hopen, hclose, hquote⟩ := (isNeutral_iff mark).mp hlayout.neutral
  induction form with
  | number value =>
      cases h with
      | number hvalue => rwa [callChars_number]
  | string value =>
      cases h with
      | string hvalue =>
          rw [callChars_string]
          simp [hquote, hvalue]
  | call name params ih =>
      cases h with
      | call hname hparams =>
          have harguments : ∀ text ∈ params.map (callChars layout), mark ∉ text :=
            List.forall_mem_map.mpr fun param hparam => ih param hparam (hparams param hparam)
          have hlist := notMem_intercalate hlayout.argument harguments
          rw [callChars_call]
          simp [hname, hopen, hlist, hclose]

theorem Lacks.notMem_lineText (hlayout : layout.BreaksLinesAt mark) (h : form.Lacks mark) :
    mark ∉ (form.lineText layout).toList := by
  have hform := h.notMem_callChars hlayout
  rw [callChars] at hform
  cases form with
  | number value => simpa [lineText, kind] using hform
  | string value => simpa [lineText, kind] using hform
  | call name params => simp [lineText, kind, hform, hlayout.terminator]

end Form

/-- Cutting the text of a program at the line separator gives the texts of its forms. -/
theorem Program.splitOn_callText {layout : Layout} {mark : Char} {p : Program}
    (hlayout : layout.BreaksLinesAt mark) (hlacks : ∀ form ∈ p.body, form.Lacks mark)
    (hne : p.body ≠ []) :
    ((p.callText layout).toList.splitOn mark).map String.ofList =
      p.body.map (Form.lineText layout) := by
  have hlines : ∀ line ∈ (p.body.map (Form.lineText layout)).map String.toList, mark ∉ line := by
    intro line hline
    obtain ⟨form, hform, rfl⟩ : ∃ form ∈ p.body, (form.lineText layout).toList = line := by
      simpa using hline
    exact (hlacks form hform).notMem_lineText hlayout
  rw [callText, String.toList_intercalate, hlayout.line_eq, String.toList_singleton,
    List.splitOn_intercalate mark hlines (by simpa using hne)]
  simp

/-- If the line separator is a character that stands in nothing else, and the text has tokens but no
string that holds it, then the lines of the output are the code of the program rendered node by
node: there are as many as forms, a call's line ends with its parenthesis and the terminator, and a
literal's line is the literal. -/
theorem compile_one_line_per_form {config : Config} {mark : Char}
    (hlayout : config.toLayout.BreaksLinesAt mark) {text output : String} {tokens : List Token}
    (htokens : Token.ofText text = .ok tokens) (hne : tokens ≠ [])
    (hstrings : ∀ t ∈ tokens, t.kind = .string → mark ∉ t.value.toList)
    (h : compile config text = .ok output) :
    ∃ program listing lines,
      Program.ofTokens config.strictCallee tokens = .ok program ∧ program.lower = .ok listing ∧
      (output.toList.splitOn mark).map String.ofList = lines ∧
      lines.length = program.body.length ∧
      listing.body.map (Code.render config.toLayout) = lines.map .ok ∧
      List.Forall₂ (Form.HasLine config.toLayout) program.body lines := by
  obtain ⟨program, ⟨_, hscan, hread⟩, rfl⟩ := compile_eq_ok_iff.mp h
  cases htokens.symm.trans hscan
  have hderives := Program.derivesAll_of_ofTokens hread
  have hwellFormed := ((Token.ofText_eq_ok_iff text tokens).mp htokens).wellFormed
  have hlacks := hderives.lacks fun t ht =>
    (hwellFormed t ht).notMem_value hlayout.neutral (hstrings t ht)
  have hbody : program.body ≠ [] := by
    intro hnil
    rw [hnil] at hderives
    cases hderives
    exact hne rfl
  refine ⟨program, program.toListing, program.body.map (Form.lineText config.toLayout), hread,
    program.lower_eq, Program.splitOn_callText hlayout hlacks hbody, by simp, ?_, ?_⟩
  · rw [Code.map_render_eq, Program.map_text_toListing]
  · rw [List.forall₂_map_right_iff, List.forall₂_same]
    exact fun form _ => form.hasLine_lineText config.toLayout

/-- By default lines end with a line break. Here a parenthesis and a string name calls, and the text
itself is broken where its forms are not. -/
theorem compile_one_line_per_form_default :
    Layout.BreaksLinesAt {} '\n' ∧
      Token.ofText "(( 1\n(\"a;b\"))\"c\"7" =
        .ok [⟨.paren, "("⟩, ⟨.paren, "("⟩, ⟨.number, "1"⟩, ⟨.paren, "("⟩, ⟨.string, "a;b"⟩,
          ⟨.paren, ")"⟩, ⟨.paren, ")"⟩, ⟨.string, "c"⟩, ⟨.number, "7"⟩] ∧
      compile {} "(( 1\n(\"a;b\"))\"c\"7" = .ok "((1, a;b());\n\"c\"\n7" ∧
      ∃ (program : Program) (listing : Listing), program.lower = .ok listing ∧
        listing.body.map (Code.render {}) = [.ok "((1, a;b());", .ok "\"c\"", .ok "7"] ∧
        List.Forall₂ (Form.HasLine {}) program.body ["((1, a;b());", "\"c\"", "7"] := by
  have hlayout : Layout.BreaksLinesAt {} '\n' := by
    constructor <;> decide
  have htokens : Token.ofText "(( 1\n(\"a;b\"))\"c\"7" =
      .ok [⟨.paren, "("⟩, ⟨.paren, "("⟩, ⟨.number, "1"⟩, ⟨.paren, "("⟩, ⟨.string, "a;b"⟩,
        ⟨.paren, ")"⟩, ⟨.paren, ")"⟩, ⟨.string, "c"⟩, ⟨.number, "7"⟩] := by decide +kernel
  have h : compile {} "(( 1\n(\"a;b\"))\"c\"7" = .ok "((1, a;b());\n\"c\"\n7" := by
    simp only [compile_eq_result_ofTokens, Compilation.result_ofTokens]
    decide +kernel
  have hsplit : ("((1, a;b());\n\"c\"\n7".toList.splitOn '\n').map String.ofList =
      ["((1, a;b());", "\"c\"", "7"] := by decide +kernel
  obtain ⟨program, listing, lines, -, hlower, hlines, -, hrender, hforms⟩ :=
    compile_one_line_per_form hlayout htokens (by simp) (by simp) h
  cases hlines.symm.trans hsplit
  exact ⟨hlayout, htokens, h, program, listing, hlower, hrender, hforms⟩

end CallForms

import CallForms.Proofs.Lowering
import Mathlib.Data.Set.List

/-!
Which listings programs are lowered to.

Taking the statements off undoes lowering, so no two programs are lowered alike. A listing comes
from a program exactly if it has no identifiers, and if its statements are the calls of its body.
That is said of all nodes at once; `IsArgument` and `IsLine` say it along the code, one rule for
each kind of node that may stand there.
-/

namespace CallForms

namespace Form

theorem toForms?_map {forms : List Form} {toCode : Form → Code}
    (h : ∀ form ∈ forms, (toCode form).toForm? = some form) :
    Code.toForms? (forms.map toCode) = some forms := by
  induction forms with
  | nil => rfl
  | cons form forms ih =>
      rw [List.forall_mem_cons] at h
      simp [Code.toForms?, h.1, ih h.2]

theorem toForm?_toCode (form : Form) : form.toCode.toForm? = some form := by
  induction form with
  | number value => rfl
  | string value => rfl
  | call name params ih =>
      rw [toCode, toCodes_eq_map, Code.toForm?, toForms?_map ih, Option.map_some]

theorem toForm?_toLine (form : Form) : form.toLine.toForm? = some form := by
  rw [← toForm?_toCode form]
  cases form <;> rfl

theorem isArgument_toCode (form : Form) : form.toCode.IsArgument := by
  induction form with
  | number value => exact .number value
  | string value => exact .string value
  | call name params ih =>
      rw [toCode, toCodes_eq_map]
      exact .call (List.forall_mem_map.mpr ih)

theorem isLine_toLine (form : Form) : form.toLine.IsLine := by
  cases form with
  | number value => exact .number value
  | string value => exact .string value
  | call name params =>
      cases isArgument_toCode (.call name params) with
      | call harguments => exact .call harguments

end Form

theorem exists_map_eq {α β : Type} {f : α → β} {items : List β}
    (h : ∀ item ∈ items, ∃ a, f a = item) : ∃ as : List α, as.map f = items := by
  have hrange : items ∈ Set.range (List.map f) := by
    rw [Set.range_list_map]
    exact h
  exact hrange

namespace Code

/-- Code in argument position comes from a form. -/
theorem IsArgument.exists_toCode {code : Code} (h : code.IsArgument) :
    ∃ form : Form, form.toCode = code := by
  induction code with
  | number value => exact ⟨.number value, rfl⟩
  | string value => exact ⟨.string value, rfl⟩
  | call callee arguments ih =>
      cases h with
      | call harguments =>
          obtain ⟨params, hparams⟩ := exists_map_eq fun argument hargument =>
            ih argument hargument (harguments argument hargument)
          exact ⟨.call callee params, by rw [Form.toCode, Form.toCodes_eq_map, hparams]⟩
  | statement expression _ => cases h
  | identifier name => cases h

theorem IsLine.exists_toLine {code : Code} (h : code.IsLine) :
    ∃ form : Form, form.toLine = code := by
  cases h with
  | number value => exact ⟨.number value, rfl⟩
  | string value => exact ⟨.string value, rfl⟩
  | call harguments =>
      obtain ⟨form, hform⟩ := (IsArgument.call harguments).exists_toCode
      refine ⟨form, ?_⟩
      cases form with
      | call name params => rw [← hform, Form.toLine, Form.kind]
      | number value => cases hform
      | string value => cases hform

theorem isArgument_iff (code : Code) :
    code.IsArgument ↔ ∀ node ∈ code.nodes, node.kind ≠ .identifier ∧ node.kind ≠ .statement := by
  induction code with
  | number value => simp [nodes, kind, IsArgument.number]
  | string value => simp [nodes, kind, IsArgument.string]
  | call callee arguments ih =>
      have hcall : (call callee arguments).IsArgument ↔
          ∀ argument ∈ arguments, argument.IsArgument := by
        constructor
        · intro h
          cases h with
          | call harguments => exact harguments
        · exact .call
      rw [hcall, forall₂_congr ih, nodes, List.forall_mem_cons, inner_call,
        List.forall_mem_flatMap]
      simp [kind]
  | statement expression _ =>
      constructor
      · rintro ⟨⟩
      · intro h
        exact absurd rfl (h (statement expression) (by simp [nodes])).2
  | identifier name =>
      constructor
      · rintro ⟨⟩
      · intro h
        exact absurd rfl (h (identifier name) (by simp [nodes])).1

theorem isLine_statement_iff (expression : Code) :
    (statement expression).IsLine ↔ expression.kind = .call ∧ expression.IsArgument := by
  constructor
  · intro h
    cases h with
    | call harguments => exact ⟨rfl, .call harguments⟩
  · rintro ⟨hkind, hargument⟩
    cases hargument with
    | call harguments => exact .call harguments
    | number value => cases hkind
    | string value => cases hkind

theorem isLine_iff (code : Code) :
    code.IsLine ↔
      (∀ node ∈ code.nodes, node.kind ≠ .identifier) ∧
      (∀ node ∈ code.inner, node.kind ≠ .statement) ∧
      (∀ expression, code = .statement expression → expression.kind = .call) ∧
      code.kind ≠ .call := by
  cases code with
  | number value => simp [nodes, kind, IsLine.number]
  | string value => simp [nodes, kind, IsLine.string]
  | identifier name =>
      constructor
      · rintro ⟨⟩
      · intro h
        exact absurd rfl (h.1 (identifier name) (by simp [nodes]))
  | call callee arguments =>
      constructor
      · rintro ⟨⟩
      · intro h
        exact absurd rfl h.2.2.2
  | statement expression =>
      rw [isLine_statement_iff, isArgument_iff]
      constructor
      · rintro ⟨hkind, hnodes⟩
        refine ⟨?_, ?_, ?_, by simp [kind]⟩
        · rw [nodes, List.forall_mem_cons, inner_statement]
          exact ⟨by simp [kind], fun node hnode => (hnodes node hnode).1⟩
        · rw [inner_statement]
          exact fun node hnode => (hnodes node hnode).2
        · rintro _ ⟨⟩
          exact hkind
      · rintro ⟨hidentifier, hstatement, hcall, -⟩
        rw [nodes, List.forall_mem_cons, inner_statement] at hidentifier
        rw [inner_statement] at hstatement
        refine ⟨hcall expression rfl, ?_⟩
        intro node hnode
        exact ⟨hidentifier.2 node hnode, hstatement node hnode⟩

end Code

theorem Listing.isLowered_iff (listing : Listing) :
    listing.IsLowered ↔ ∀ code ∈ listing.body, code.IsLine := by
  simp only [Code.isLine_iff]
  constructor
  · intro h code hcode
    have hidentifier := List.forall_mem_flatMap.mp h.noIdentifier
    refine ⟨hidentifier code hcode, h.noStatementInside code hcode, ?_,
      h.callInStatement code hcode⟩
    rintro expression rfl
    exact h.statementOfCall expression hcode
  · intro h
    exact {
      noIdentifier := List.forall_mem_flatMap.mpr fun code hcode => (h code hcode).1
      noStatementInside := fun code hcode => (h code hcode).2.1
      statementOfCall := fun expression hcode => (h _ hcode).2.2.1 expression rfl
      callInStatement := fun code hcode => (h code hcode).2.2.2 }

namespace Program

theorem lower_eq (p : Program) : p.lower = .ok p.toListing := by
  rw [lower, lowering_eq]

theorem toProgram?_toListing (p : Program) : p.toListing.toProgram? = some p := by
  have hbody := Form.toForms?_map fun form (_ : form ∈ p.body) => form.toForm?_toLine
  rw [Listing.toProgram?, toListing, hbody, Option.map_some]

theorem exists_toListing_iff (listing : Listing) :
    (∃ p : Program, p.toListing = listing) ↔ listing.IsLowered := by
  rw [listing.isLowered_iff]
  constructor
  · rintro ⟨p, rfl⟩
    exact List.forall_mem_map.mpr fun form _ => form.isLine_toLine
  · intro h
    obtain ⟨forms, hforms⟩ := exists_map_eq fun code hcode => (h code hcode).exists_toLine
    exact ⟨⟨forms⟩, by rw [toListing, hforms]⟩

/-- Lowering never fails and maps the body of a program form by form: literals to themselves, calls
to calls on the lowered parameters, and the calls of the body to statements of them. Taking the
statements off gives the program back, so no two programs are lowered alike. The listings that it
gives are those without identifiers in which the calls of the body are statements, and nothing else
is one. -/
theorem lower_embeds_onto_isLowered :
    (∀ p : Program, ∃ listing, p.lower = .ok listing ∧ listing.body = p.body.map Form.toLine ∧
      listing.toProgram? = some p) ∧
    (∀ p q : Program, p.lower = q.lower ↔ p = q) ∧
    ∀ listing : Listing, (∃ p : Program, p.lower = .ok listing) ↔ listing.IsLowered := by
  refine ⟨?_, ?_, ?_⟩
  · intro p
    exact ⟨p.toListing, p.lower_eq, rfl, p.toProgram?_toListing⟩
  · intro p q
    constructor
    · intro h
      have hlisting : p.toListing = q.toListing := by simpa [lower_eq] using h
      have hprogram : some p = some q := by
        rw [← p.toProgram?_toListing, hlisting, q.toProgram?_toListing]
      exact Option.some.inj hprogram
    · rintro rfl
      rfl
  · intro listing
    simpa [lower_eq] using exists_toListing_iff listing

end Program

end CallForms

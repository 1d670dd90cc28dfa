import CallForms.Code.Dismantling
import CallForms.Form.Dismantling
import Mathlib.Data.List.Perm.Basic

/-!
Taking a call apart takes off every node below it once and leaves nothing to do behind.

The nodes on the stack and those below them are the same before and after a round, but for the one
that the round takes off. In code the nodes on the stack are arguments; a call below is one of them
or stands in one of them behind statements, and its own arguments are moved through those.
-/

namespace CallForms

namespace Form

theorem clears_teardown : teardown.Clears := by
  intro form
  cases form <;> rfl

theorem descendantsAll_eq_flatMap (forms : List Form) :
    descendantsAll forms = forms.flatMap fun form => form :: form.descendants := by
  induction forms with
  | nil => rfl
  | cons form rest ih => rw [descendantsAll, ih, List.flatMap_cons, List.cons_append]

theorem descendants_eq (form : Form) :
    form.descendants = form.params.flatMap fun param => param :: param.descendants := by
  cases form with
  | number value => rfl
  | string value => rfl
  | call name params => rw [descendants, descendantsAll_eq_flatMap, Form.params]

theorem dismantle_perm (form : Form) : form.dismantle.Perm form.descendants :=
  clears_teardown.popped_stackOf_perm (fun form => .of_eq form.descendants_eq) form

end Form

namespace Code

theorem clears_teardown : teardown.Clears := by
  intro code
  change (code.setArguments []).arguments?.getD [] = []
  induction code with
  | statement expression ih => exact ih
  | call callee arguments _ => rfl
  | identifier name => rfl
  | number value => rfl
  | string value => rfl

section Equations

@[simp] theorem allArguments_statement (expression : Code) :
    (statement expression).allArguments = expression.allArguments := by
  simp [allArguments, nodes, ownArguments]

@[simp] theorem allArguments_call (callee : String) (arguments : List Code) :
    (call callee arguments).allArguments = arguments ++ arguments.flatMap allArguments := by
  rw [allArguments, nodes, List.flatMap_cons, ownArguments, inner_call, List.flatMap_assoc]
  rfl

@[simp] theorem allArguments_identifier (name : String) : (identifier name).allArguments = [] := by
  simp [allArguments, nodes, ownArguments]

@[simp] theorem allArguments_number (value : String) : (number value).allArguments = [] := by
  simp [allArguments, nodes, ownArguments]

@[simp] theorem allArguments_string (value : String) : (string value).allArguments = [] := by
  simp [allArguments, nodes, ownArguments]

end Equations

/-- The arguments in a node are those right below it, found through statements, and the arguments in
these. -/
theorem allArguments_perm (code : Code) :
    code.allArguments.Perm
      ((code.arguments?.getD []).flatMap fun argument => argument :: argument.allArguments) := by
  induction code with
  | statement expression ih => simpa [arguments?] using ih
  | call callee arguments _ =>
      have hperm := List.flatMap_append_perm arguments (fun argument => [argument]) allArguments
      simpa [arguments?] using hperm
  | identifier name => simp [arguments?]
  | number value => simp [arguments?]
  | string value => simp [arguments?]

theorem dismantle_perm (code : Code) : code.dismantle.Perm code.allArguments :=
  clears_teardown.popped_stackOf_perm allArguments_perm code

/-- The calls in a node are what is bare of the node, if that is a call, and of the arguments in
it. -/
theorem calls_perm (code : Code) :
    (code.nodes.filter (·.kind = .call)).Perm
      (((code :: code.allArguments).map bare).filter (·.kind = .call)) := by
  induction code with
  | statement expression ih => simpa [nodes, bare, kind] using ih
  | call callee arguments ih =>
      -- Below the call these are the arguments, each with those in it, and bare of statements.
      have hinner := List.Perm.flatMap_left arguments ih
      have hbelow := ((allArguments_perm (call callee arguments)).map bare).filter
        fun node => decide (node.kind = .call)
      rw [arguments?, Option.getD_some, List.map_flatMap, List.filter_flatMap] at hbelow
      have hcalls := (hinner.trans hbelow.symm).cons (call callee arguments)
      rw [← List.filter_flatMap] at hcalls
      simpa [nodes, bare, kind] using hcalls
  | identifier name => simp [nodes, bare, kind]
  | number value => simp [nodes, bare, kind]
  | string value => simp [nodes, bare, kind]

/-- A call below is held by one of the nodes that are taken off, by itself or in statements. -/
theorem dismantle_calls_perm {code : Code} (h : code.kind = .call) :
    ((code.dismantle.map bare).filter (·.kind = .call)).Perm
      (code.inner.filter (·.kind = .call)) := by
  have hbare : code.bare = code := by
    cases code with
    | statement expression => cases h
    | _ => rfl
  have hpopped := (code.dismantle_perm.map bare).filter fun node => decide (node.kind = .call)
  have hcalls := code.calls_perm
  rw [nodes, List.map_cons, hbare, List.filter_cons_of_pos (by simp [h]),
    List.filter_cons_of_pos (by simp [h])] at hcalls
  exact hpopped.trans hcalls.cons_inv.symm

theorem eq_nil_of_mem_setArguments_nil {code : Code} {callee : String} {arguments : List Code}
    (h : call callee arguments ∈ (code.setArguments []).nodes) : arguments = [] := by
  induction code with
  | statement expression ih => exact ih (by simpa [setArguments, nodes] using h)
  | call callee arguments _ => simp_all [setArguments, nodes]
  | identifier name => simp [setArguments, nodes] at h
  | number value => simp [setArguments, nodes] at h
  | string value => simp [setArguments, nodes] at h

end Code

/-- Taking a form apart takes every form below it off the stack once, teardowns that released forms
start included. The stack is empty after as many rounds as there are forms below. What is released
has no parameters, so its own teardown takes nothing off. Taking a call of code apart does the same
with the arguments of all calls in it: every call below is held by one of the nodes that are taken
off, and has lost its arguments when that node is released. -/
theorem dismantling_takes_all_apart :
    (∀ form : Form,
      form.dismantle.Perm form.descendants ∧
      (∀ rounds, form.dismantle[rounds]? =
        (Form.teardown.after rounds (Form.teardown.stackOf form)).head?) ∧
      (∀ rounds, Form.teardown.after rounds (Form.teardown.stackOf form) = [] ↔
        form.descendants.length ≤ rounds) ∧
      ∀ node ∈ form.dismantle, node.emptied.params = [] ∧ node.emptied.dismantle = []) ∧
    ∀ root : Code, root.kind = .call →
      root.dismantle.Perm root.allArguments ∧
      (∀ rounds, root.dismantle[rounds]? =
        (Code.teardown.after rounds (Code.teardown.stackOf root)).head?) ∧
      (∀ rounds, Code.teardown.after rounds (Code.teardown.stackOf root) = [] ↔
        root.allArguments.length ≤ rounds) ∧
      ((root.dismantle.map Code.bare).filter (·.kind = .call)).Perm
        (root.inner.filter (·.kind = .call)) ∧
      ∀ node ∈ root.dismantle,
        (∀ callee arguments, Code.call callee arguments ∈ (node.setArguments []).nodes →
          arguments = []) ∧
        (node.setArguments []).dismantle = [] := by
  constructor
  · intro form
    have hperm := form.dismantle_perm
    refine ⟨hperm, fun rounds => Form.clears_teardown.getElem?_popped rounds _, ?_, ?_⟩
    · intro rounds
      rw [← hperm.length_eq]
      exact Form.clears_teardown.after_eq_nil_iff rounds _
    · intro node _
      exact ⟨Form.clears_teardown node, Form.clears_teardown.popped_left node⟩
  · intro root hroot
    have hperm := root.dismantle_perm
    refine ⟨hperm, fun rounds => Code.clears_teardown.getElem?_popped rounds _, ?_,
      Code.dismantle_calls_perm hroot, ?_⟩
    · intro rounds
      rw [← hperm.length_eq]
      exact Code.clears_teardown.after_eq_nil_iff rounds _
    · intro node _
      exact ⟨fun _ _ => Code.eq_nil_of_mem_setArguments_nil,
        Code.clears_teardown.popped_left node⟩

/-- The second argument holds a call in two statements and is on the stack as a whole. -/
theorem dismantling_takes_all_apart_statements :
    (Code.call "f" [.identifier "x", .statement (.statement (.call "g" [.number "1"]))]).dismantle =
        [.statement (.statement (.call "g" [.number "1"])), .number "1", .identifier "x"] ∧
      Code.teardown.after 3 (Code.teardown.stackOf
        (.call "f" [.identifier "x", .statement (.statement (.call "g" [.number "1"]))])) = [] ∧
      (Code.statement (.statement (.call "g" []))).dismantle = [] := by
  have hpopped : (Code.call "f"
      [.identifier "x", .statement (.statement (.call "g" [.number "1"]))]).dismantle =
        [.statement (.statement (.call "g" [.number "1"])), .number "1", .identifier "x"] := by
    cbv
  obtain ⟨hperm, -, hend, -, hleft⟩ := dismantling_takes_all_apart.2
    (.call "f" [.identifier "x", .statement (.statement (.call "g" [.number "1"]))]) rfl
  have hmem : Code.statement (.statement (.call "g" [.number "1"])) ∈ (Code.call "f"
      [.identifier "x", .statement (.statement (.call "g" [.number "1"]))]).dismantle := by
    rw [hpopped]
    exact .head _
  refine ⟨hpopped, (hend 3).mpr ?_, (hleft _ hmem).2⟩
  rw [← hperm.length_eq, hpopped]
  decide

end CallForms

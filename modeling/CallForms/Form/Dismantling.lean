import CallForms.Form.Basic
import CallForms.Teardown

/-!
Taking a call apart with a stack, so that no depth of nesting is too deep.
-/

namespace CallForms

namespace Form

/-- What is left of a form once its parameters are moved elsewhere. -/
def emptied : Form → Form
  | call name _ => call name []
  | number value => number value
  | string value => string value

def teardown : Teardown Form where
  children := params
  left := emptied
  weight := count
  weight_children_lt form := by
    rw [form.count_eq]
    omega
  weight_left_le form := by
    cases form <;> simp [emptied, count, countAll]

/-- The forms that are taken off the stack when a form is taken apart, in order. -/
def dismantle (form : Form) : List Form :=
  teardown.popped (teardown.stackOf form)

mutual

/-- The parameters at every depth of a form. -/
def descendants : Form → List Form
  | number _ | string _ => []
  | call _ params => descendantsAll params

/-- The forms and the parameters at every depth of them. -/
def descendantsAll : List Form → List Form
  | [] => []
  | form :: rest => form :: (form.descendants ++ descendantsAll rest)

end

end Form

end CallForms

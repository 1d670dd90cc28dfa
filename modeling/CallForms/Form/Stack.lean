import CallForms.Form.Basic

/-!
Building forms bottom up on a stack.
-/

namespace CallForms

structure FormStack where
  /-- The forms, the top one first. -/
  forms : List Form := []

namespace FormStack

def push (s : FormStack) (form : Form) : FormStack :=
  ⟨form :: s.forms⟩

/-- Makes the topmost `arity` forms the parameters of a call, the deepest one first. -/
def call? (s : FormStack) (name : String) (arity : Nat) : Option FormStack :=
  if arity ≤ s.forms.length then
    some ⟨.call name (s.forms.take arity).reverse :: s.forms.drop arity⟩
  else
    none

def dup? (s : FormStack) : Option FormStack :=
  s.forms.head?.map s.push

def drop? (s : FormStack) : Option FormStack :=
  s.forms.head?.map fun _ => ⟨s.forms.tail⟩

def topEqual? (s : FormStack) : Option Bool :=
  match s.forms with
  | top :: next :: _ => some (top == next)
  | _ => none

/-- The whole stack as a program, the bottom form first. -/
def program (s : FormStack) : Program :=
  ⟨s.forms.reverse⟩

end FormStack

end CallForms

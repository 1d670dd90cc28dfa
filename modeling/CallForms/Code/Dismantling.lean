import CallForms.Code.Arguments
import CallForms.Code.Nodes
import CallForms.Teardown

/-!
Taking a call apart with a stack. A call wrapped in statements gives up its arguments through
them, and the statements are released with it.
-/

namespace CallForms

namespace Code

theorem total_count_arguments_lt (code : Code) :
    total count (code.arguments?.getD []) < code.count := by
  induction code with
  | statement expression ih =>
      simp only [arguments?, count]
      omega
  | call callee arguments ih => simp [arguments?, count, countAll_eq_total]
  | identifier name => simp [arguments?, count]
  | number value => simp [arguments?, count]
  | string value => simp [arguments?, count]

theorem count_setArguments_nil_le (code : Code) : (code.setArguments []).count ≤ code.count := by
  induction code with
  | statement expression ih =>
      simp only [setArguments, count]
      omega
  | call callee arguments _ => simp [setArguments, count, countAll]
  | identifier name => simp [setArguments]
  | number value => simp [setArguments]
  | string value => simp [setArguments]

def teardown : Teardown Code where
  children code := code.arguments?.getD []
  left code := code.setArguments []
  weight := count
  weight_children_lt := total_count_arguments_lt
  weight_left_le := count_setArguments_nil_le

/-- The nodes that are taken off the stack when a node is taken apart, in order. -/
def dismantle (code : Code) : List Code :=
  teardown.popped (teardown.stackOf code)

/-- The argument list that a node has itself, and not through the nodes in it. -/
def ownArguments : Code → List Code
  | call _ arguments => arguments
  | statement _ | identifier _ | number _ | string _ => []

/-- The arguments of all the calls in a node. -/
def allArguments (code : Code) : List Code :=
  code.nodes.flatMap ownArguments

end Code

end CallForms

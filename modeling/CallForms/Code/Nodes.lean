import CallForms.Code.Basic

/-!
The nodes of code at every depth, a node before the nodes in it, and what a single node takes up,
the nodes in it left aside.

The callee of a call is a text of that call and no node.
-/

namespace CallForms

namespace Code

mutual

/-- The expression or the arguments of a node, and the nodes inside them. -/
def inner : Code → List Code
  | statement expression => expression :: expression.inner
  | call _ arguments => nodesAll arguments
  | identifier _ | number _ | string _ => []

def nodesAll : List Code → List Code
  | [] => []
  | code :: rest => code :: (code.inner ++ nodesAll rest)

end

def nodes (code : Code) : List Code :=
  code :: code.inner

theorem nodesAll_eq_flatMap (codes : List Code) : nodesAll codes = codes.flatMap nodes := by
  induction codes with
  | nil => rfl
  | cons code rest ih => simp [nodesAll, nodes, ih]

@[simp] theorem inner_statement (expression : Code) :
    (statement expression).inner = expression.nodes := by
  rw [inner, nodes]

@[simp] theorem inner_call (callee : String) (arguments : List Code) :
    (call callee arguments).inner = arguments.flatMap nodes := by
  rw [inner, nodesAll_eq_flatMap]

@[simp] theorem inner_identifier (name : String) : (identifier name).inner = [] := by
  rw [inner]

@[simp] theorem inner_number (value : String) : (number value).inner = [] := by
  rw [inner]

@[simp] theorem inner_string (value : String) : (string value).inner = [] := by
  rw [inner]

/-- The places between neighbouring arguments. -/
def argumentGaps : Code → Nat
  | call _ arguments => arguments.length - 1
  | statement _ | identifier _ | number _ | string _ => 0

/-- The bytes of a literal's value, an identifier's name or the name of a callee. -/
def payloadBytes : Code → Nat
  | statement _ => 0
  | call callee _ => callee.utf8ByteSize
  | identifier name => name.utf8ByteSize
  | number value | string value => value.utf8ByteSize

end Code

def Listing.nodes (listing : Listing) : List Code :=
  listing.body.flatMap Code.nodes

end CallForms

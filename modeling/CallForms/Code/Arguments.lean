import CallForms.Code.Basic

/-!
The argument list of a call, seen through any number of statements around it.
-/

namespace CallForms

namespace Code

/-- The arguments of the call that a node is or wraps. -/
def arguments? : Code → Option (List Code)
  | call _ arguments => some arguments
  | statement expression => expression.arguments?
  | identifier _ | number _ | string _ => none

/-- Replaces those arguments; a node without them stays as it is. -/
def setArguments (arguments : List Code) : Code → Code
  | call callee _ => call callee arguments
  | statement expression => statement (expression.setArguments arguments)
  | identifier name => identifier name
  | number value => number value
  | string value => string value

/-- How many statements are wrapped around a node. -/
def layers : Code → Nat
  | statement expression => expression.layers + 1
  | call _ _ | identifier _ | number _ | string _ => 0

/-- What is left once all statements around a node are taken off. -/
def bare : Code → Code
  | statement expression => expression.bare
  | code => code

def wrap (code : Code) : (layers : Nat) → Code
  | 0 => code
  | layers + 1 => statement (code.wrap layers)

end Code

inductive ArgumentEdit where
  | push (argument : Code)
  | pop
  | reverse

def ArgumentEdit.onList : ArgumentEdit → List Code → List Code
  | push argument, arguments => arguments ++ [argument]
  | pop, arguments => arguments.dropLast
  | reverse, arguments => arguments.reverse

def ArgumentEdit.onListAll (edits : List ArgumentEdit) (arguments : List Code) : List Code :=
  edits.foldl (fun arguments edit => edit.onList arguments) arguments

namespace Code

/-- Changes the arguments of a node, if it has any argument list. -/
def edit? (edit : ArgumentEdit) (code : Code) : Option Code :=
  code.arguments?.map fun arguments => code.setArguments (edit.onList arguments)

/-- Makes one change after the other. -/
def editAll? (edits : List ArgumentEdit) (code : Code) : Option Code :=
  edits.foldlM (fun code edit => code.edit? edit) code

end Code

end CallForms

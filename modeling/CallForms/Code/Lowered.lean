import CallForms.Code.Nodes
import CallForms.Form.Basic

/-!
Lowering as a map on forms, its inverse, and the listings it can produce.
-/

namespace CallForms

namespace Form

mutual

/-- The code of a form in parameter position. -/
def toCode : Form → Code
  | number value => .number value
  | string value => .string value
  | call name params => .call name (toCodes params)

def toCodes : List Form → List Code
  | [] => []
  | form :: rest => form.toCode :: toCodes rest

end

theorem toCodes_eq_map (forms : List Form) : toCodes forms = forms.map toCode := by
  induction forms with
  | nil => rfl
  | cons form rest ih => simp [toCodes, ih]

/-- The code of a form in the body of a program, where a call is a statement. -/
def toLine (form : Form) : Code :=
  match form.kind with
  | .call => .statement form.toCode
  | _ => form.toCode

end Form

def Program.toListing (p : Program) : Listing :=
  ⟨p.body.map Form.toLine⟩

namespace Code

mutual

/-- The form that code came from; statements are looked through, and identifiers come from none. -/
def toForm? : Code → Option Form
  | statement expression => expression.toForm?
  | call callee arguments => (toForms? arguments).map (.call callee)
  | identifier _ => none
  | number value => some (.number value)
  | string value => some (.string value)

def toForms? : List Code → Option (List Form)
  | [] => some []
  | code :: rest =>
      match code.toForm?, toForms? rest with
      | some form, some forms => some (form :: forms)
      | _, _ => none

end

/-- Code in argument position: a literal, or a call whose arguments are such code again. -/
inductive IsArgument : Code → Prop where
  | number (value : String) : IsArgument (number value)
  | string (value : String) : IsArgument (string value)
  | call {callee : String} {arguments : List Code} :
      (∀ argument ∈ arguments, IsArgument argument) → IsArgument (call callee arguments)

/-- A literal, or a call made a statement. -/
inductive IsLine : Code → Prop where
  | number (value : String) : IsLine (number value)
  | string (value : String) : IsLine (string value)
  | call {callee : String} {arguments : List Code} :
      (∀ argument ∈ arguments, IsArgument argument) → IsLine (statement (call callee arguments))

end Code

namespace Listing

/-- A listing without identifiers, in which the calls of the body are statements and no other code
is one. -/
structure IsLowered (listing : Listing) : Prop where
  noIdentifier : ∀ node ∈ listing.nodes, node.kind ≠ .identifier
  noStatementInside : ∀ code ∈ listing.body, ∀ node ∈ code.inner, node.kind ≠ .statement
  statementOfCall : ∀ expression, .statement expression ∈ listing.body → expression.kind = .call
  callInStatement : ∀ code ∈ listing.body, code.kind ≠ .call

def toProgram? (listing : Listing) : Option Program :=
  (Code.toForms? listing.body).map Program.mk

end Listing

end CallForms

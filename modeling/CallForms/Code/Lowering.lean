import CallForms.Code.Arguments
import CallForms.Form.Walk

/-!
Lowering a program to code, as a walk.

The destination of a node is the list that its code is appended to. A call is appended without
arguments, and then the last code in the list opens its argument list for the parameters; a call in
the body of the program becomes a statement.
-/

namespace CallForms

structure LoweredCall where
  name : String
  topLevel : Bool
  deriving DecidableEq, Repr

namespace Lowering

def isTopLevel (visit : Visit) : Bool :=
  visit.parent.any Item.isProgram

/-- The code of a call, which is a statement at the top level. -/
def callCode (topLevel : Bool) (name : String) (arguments : List Code) : Code :=
  if topLevel then .statement (.call name arguments) else .call name arguments

/-- The state collects the calls in the order they are entered. -/
def visitor : Visitor (Array LoweredCall) (Array Code) where
  enter visit calls dest :=
    match visit.item with
    | .program _ => (calls, .opened dest id)
    | .form (.number value) => (calls, .opened (dest.push (.number value)) id)
    | .form (.string value) => (calls, .opened (dest.push (.string value)) id)
    | .form (.call name _) =>
        let topLevel := isTopLevel visit
        let appended := dest.push (callCode topLevel name [])
        (calls.push ⟨name, topLevel⟩,
          match appended.back?.bind Code.arguments? with
          | none => .failed appended (.missingDestination visit.item.kind.label)
          | some arguments =>
              .opened arguments.toArray fun filled =>
                appended.modify (appended.size - 1) (Code.setArguments filled.toList))
  leave _ calls dest := (calls, dest, none)

end Lowering

/-- What lowering a program gives: the calls it came by, and the listing. -/
structure Lowering where
  calls : List LoweredCall
  result : Except WalkError Listing

namespace Program

def lowering (p : Program) : Lowering :=
  let walked := Lowering.visitor.walk p #[] #[]
  { calls := walked.state.toList
    result :=
      match walked.error? with
      | none => .ok ⟨walked.dest.toList⟩
      | some e => .error e }

def lower (p : Program) : Except WalkError Listing :=
  p.lowering.result

end Program

end CallForms

import CallForms.Code.Rendering

/-!
Writing code into one text by recursion.

Everything is appended to what has been written so far. In a list of nodes it is the place of a node
that decides whether a separator goes in front of it.
-/

namespace CallForms

namespace Code

mutual

/-- Appends a node and everything in it to `out`. -/
def write (layout : Layout) (code : Code) (out : String) : Except RenderError String := do
  code.kind.check
  match code with
  | statement expression =>
      let out ← write layout expression out
      return out ++ layout.statementTerminator
  | call callee arguments =>
      let out ← writeAll layout layout.argumentSeparator 0 arguments (out ++ callee ++ "(")
      return out ++ ")"
  | identifier name => return out ++ name
  | number value => return out ++ value
  | string value => return out ++ "\"" ++ value ++ "\""

/-- Appends nodes, of which the first one has this place in its list. -/
def writeAll (layout : Layout) (separator : String) (place : Nat) (codes : List Code)
    (out : String) : Except RenderError String := do
  match codes with
  | [] => return out
  | code :: rest =>
      let out ← write layout code (if place > 0 then out ++ separator else out)
      writeAll layout separator (place + 1) rest out

end

end Code

/-- Writes the nodes of the body, a line each. -/
def Listing.write (layout : Layout) (listing : Listing) : Except RenderError String :=
  Code.writeAll layout layout.lineSeparator 0 listing.body ""

end CallForms

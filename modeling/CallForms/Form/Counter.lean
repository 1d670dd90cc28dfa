import CallForms.Form.Reading

/-!
A counter that decides what the reader decides without building any form.

All it keeps of the forms read so far is how many calls are open and whether the last of them
still lacks a name.
-/

namespace CallForms

structure Counter where
  depth : Nat := 0
  awaitsName : Bool := false
  deriving DecidableEq, Repr

namespace Counter

def step (strict : Bool) (c : Counter) (t : Token) : Except ParseError Counter :=
  if c.awaitsName then
    if strict && t.kind != .name then .error (.invalidCallee t) else .ok ⟨c.depth, false⟩
  else if t.kind = .number ∨ t.kind = .string then
    .ok c
  else if t = .openParen then
    .ok ⟨c.depth + 1, true⟩
  else if t = .closeParen ∧ 0 < c.depth then
    .ok ⟨c.depth - 1, false⟩
  else
    .error (.unexpectedToken t "literal or call")

def finish (c : Counter) : Except ParseError Unit :=
  if c.awaitsName then .error (.unexpectedEnd "call name")
  else if 0 < c.depth then .error (.unexpectedEnd "')'")
  else .ok ()

def run (strict : Bool) (c : Counter) : List Token → Except ParseError Unit
  | [] => c.finish
  | t :: ts =>
      match c.step strict t with
      | .ok next => next.run strict ts
      | .error e => .error e

end Counter

end CallForms

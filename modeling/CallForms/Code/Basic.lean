import CallForms.Worklist

/-!
Code, the target language: calls in the C style, and the statements and literals around them.

The type admits more than lowering makes: statements inside statements, statements and identifiers
as arguments, any payload. Everything here is defined for all of it.
-/

namespace CallForms

inductive Code where
  | statement (expression : Code)
  | call (callee : String) (arguments : List Code)
  | identifier (name : String)
  | number (value : String)
  | string (value : String)
  deriving Inhabited

inductive CodeKind where
  | statement
  | call
  | identifier
  | number
  | string
  deriving DecidableEq, Repr

def CodeKind.label : CodeKind → String
  | statement => "ExpressionStatement"
  | call => "CallExpression"
  | identifier => "Identifier"
  | number => "NumberLiteral"
  | string => "StringLiteral"

namespace Code

/-- The kinds of code, in the order in which they are numbered. -/
def kinds : List CodeKind :=
  [.statement, .call, .identifier, .number, .string]

/-- Induction on code; a call's arguments satisfy the motive one by one. -/
@[elab_as_elim, induction_eliminator]
theorem induct {motive : Code → Prop}
    (statement : ∀ expression, motive expression → motive (statement expression))
    (call : ∀ callee arguments, (∀ argument ∈ arguments, motive argument) →
      motive (call callee arguments))
    (identifier : ∀ name, motive (identifier name))
    (number : ∀ value, motive (number value))
    (string : ∀ value, motive (string value)) :
    ∀ code, motive code
  | .statement expression =>
      statement expression (induct statement call identifier number string expression)
  | .call callee arguments =>
      call callee arguments fun argument _ =>
        induct statement call identifier number string argument
  | .identifier name => identifier name
  | .number value => number value
  | .string value => string value

def kind : Code → CodeKind
  | statement _ => .statement
  | call _ _ => .call
  | identifier _ => .identifier
  | number _ => .number
  | string _ => .string

mutual

def count : Code → Nat
  | statement expression => expression.count + 1
  | call _ arguments => countAll arguments + 1
  | identifier _ | number _ | string _ => 1

def countAll : List Code → Nat
  | [] => 0
  | code :: rest => code.count + countAll rest

end

theorem countAll_eq_total (codes : List Code) : countAll codes = total count codes := by
  induction codes with
  | nil => rfl
  | cons code rest ih => simp [countAll, ih]

end Code

structure Listing where
  body : List Code
  deriving Inhabited

end CallForms

import CallForms.Worklist

/-!
Forms, the source language: literals, and calls written as a parenthesised name with parameters.
-/

namespace CallForms

inductive Form where
  /-- A run of digits, kept as it is written. -/
  | number (value : String)
  /-- The text between two quotes. -/
  | string (value : String)
  | call (name : String) (params : List Form)
  deriving Inhabited

namespace Form

/-- Induction on forms; a call's parameters satisfy the motive one by one. -/
@[elab_as_elim, induction_eliminator]
theorem induct {motive : Form → Prop}
    (number : ∀ value, motive (number value))
    (string : ∀ value, motive (string value))
    (call : ∀ name params, (∀ param ∈ params, motive param) → motive (call name params)) :
    ∀ form, motive form
  | .number value => number value
  | .string value => string value
  | .call name params => call name params fun param _ => induct number string call param

mutual

def decEq : (a b : Form) → Decidable (a = b)
  | .number v, .number w => if h : v = w then .isTrue (by rw [h]) else .isFalse (by simp [h])
  | .string v, .string w => if h : v = w then .isTrue (by rw [h]) else .isFalse (by simp [h])
  | .call f ps, .call g qs =>
      if hname : f = g then
        match decEqList ps qs with
        | .isTrue h => .isTrue (by rw [hname, h])
        | .isFalse h => .isFalse (by simp [h])
      else
        .isFalse (by simp [hname])
  | .number _, .string _ | .number _, .call _ _ | .string _, .number _ | .string _, .call _ _
  | .call _ _, .number _ | .call _ _, .string _ => .isFalse (by simp)

def decEqList : (as bs : List Form) → Decidable (as = bs)
  | [], [] => .isTrue rfl
  | a :: as, b :: bs =>
      match decEq a b with
      | .isTrue hhead =>
          match decEqList as bs with
          | .isTrue htail => .isTrue (by rw [hhead, htail])
          | .isFalse htail => .isFalse (by simp [htail])
      | .isFalse hhead => .isFalse (by simp [hhead])
  | [], _ :: _ | _ :: _, [] => .isFalse (by simp)

end

instance : DecidableEq Form := decEq

def params : Form → List Form
  | call _ params => params
  | number _ | string _ => []

mutual

def count : Form → Nat
  | number _ | string _ => 1
  | call _ params => countAll params + 1

def countAll : List Form → Nat
  | [] => 0
  | form :: rest => form.count + countAll rest

end

theorem countAll_eq_total (forms : List Form) : countAll forms = total count forms := by
  induction forms with
  | nil => rfl
  | cons form rest ih => simp [countAll, ih]

theorem count_eq (form : Form) : form.count = total count form.params + 1 := by
  cases form with
  | number value => rfl
  | string value => rfl
  | call name params => rw [count, countAll_eq_total, Form.params]

end Form

/-- A program is its forms in the order they are written. -/
structure Program where
  body : List Form
  deriving DecidableEq, Inhabited

/-- The kinds of node that a program is made of, the program itself included. -/
inductive NodeKind where
  | program
  | call
  | number
  | string
  deriving DecidableEq, Repr

def NodeKind.label : NodeKind → String
  | program => "Program"
  | call => "CallExpression"
  | number => "NumberLiteral"
  | string => "StringLiteral"

def NodeKind.ofLabel? : String → Option NodeKind
  | "Program" => some program
  | "CallExpression" => some call
  | "NumberLiteral" => some number
  | "StringLiteral" => some string
  | _ => none

/-- The kinds of forms, in the order in which they are numbered. -/
def Form.kinds : List NodeKind :=
  [.call, .number, .string]

def Form.kind : Form → NodeKind
  | number _ => .number
  | string _ => .string
  | call _ _ => .call

end CallForms

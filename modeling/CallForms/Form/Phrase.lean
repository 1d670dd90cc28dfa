import CallForms.Form.Reading

/-!
Reading tokens by recursion, one function for each kind of phrase.

A form asks for the rest of a call behind an opening parenthesis, a call for its parameters, and
each parameter for a form again. What is open is known from where the recursion stands. Each
function says itself what it lacks if the tokens end, a form included, which is never asked for at
their end.
-/

namespace CallForms

/-- Something that the tokens begin with, and the tokens behind it, which are fewer. -/
structure Phrase (α : Type) (tokens : List Token) where
  value : α
  rest : List Token
  length_rest_lt : rest.length < tokens.length

namespace Phrase

mutual

def form (strict : Bool) (tokens : List Token) : Except ParseError (Phrase Form tokens) :=
  match tokens with
  | [] => .error (.unexpectedEnd "literal or call")
  | t :: ts =>
      match t.kind with
      | .number => .ok ⟨.number t.value, ts, by simp⟩
      | .string => .ok ⟨.string t.value, ts, by simp⟩
      | .paren | .name =>
          if t.isOpen then
            match call strict ts with
            | .error e => .error e
            | .ok inner => .ok ⟨inner.value, inner.rest, Nat.lt_succ_of_lt inner.length_rest_lt⟩
          else
            .error (.unexpectedToken t "literal or call")
termination_by (tokens.length, 0)

/-- The call whose opening parenthesis is in front of the tokens. -/
def call (strict : Bool) (tokens : List Token) : Except ParseError (Phrase Form tokens) :=
  match tokens with
  | [] => .error (.unexpectedEnd "call name")
  | name :: ts =>
      if strict && name.kind != .name then
        .error (.invalidCallee name)
      else
        match params strict ts with
        | .error e => .error e
        | .ok inner =>
            .ok ⟨.call name.value inner.value, inner.rest, Nat.lt_succ_of_lt inner.length_rest_lt⟩
termination_by (tokens.length, 0)

/-- The parameters of a call up to its closing parenthesis. -/
def params (strict : Bool) (tokens : List Token) : Except ParseError (Phrase (List Form) tokens) :=
  match tokens with
  | [] => .error (.unexpectedEnd "')'")
  | t :: ts =>
      if t.isClose then
        .ok ⟨[], ts, by simp⟩
      else
        match form strict (t :: ts) with
        | .error e => .error e
        | .ok first =>
            match params strict first.rest with
            | .error e => .error e
            | .ok more =>
                .ok ⟨first.value :: more.value, more.rest,
                  Nat.lt_trans more.length_rest_lt first.length_rest_lt⟩
termination_by (tokens.length, 1)
decreasing_by
  · exact Prod.Lex.right _ Nat.one_pos
  · exact Prod.Lex.left _ _ first.length_rest_lt

end

/-- The forms up to the end of the tokens. -/
def forms (strict : Bool) (tokens : List Token) : Except ParseError (List Form) :=
  match tokens with
  | [] => .ok []
  | t :: ts =>
      match form strict (t :: ts) with
      | .error e => .error e
      | .ok first =>
          match forms strict first.rest with
          | .error e => .error e
          | .ok more => .ok (first.value :: more)
termination_by tokens.length
decreasing_by exact first.length_rest_lt

end Phrase

def Program.ofPhrases (strict : Bool) (tokens : List Token) : Except ParseError Program :=
  (Phrase.forms strict tokens).map Program.mk

end CallForms

import CallForms.Form.Basic
import CallForms.Token.Scan

/-!
Reading tokens into forms.

The grammar comes first. A literal is one token. A call is an opening parenthesis, a token that
names it, the parameters and a closing parenthesis; in strict mode the naming token is a name.

The reader goes through the tokens once and keeps the calls that are still open on a stack of its
own, so no nesting is too deep for it. `Reading` is its state: what one more token does is
`Reading.step`, and what the end of the tokens means is `Reading.finish`.
-/

namespace CallForms

mutual

/-- The tokens derive the form. -/
inductive Derives (strict : Bool) : List Token → Form → Prop where
  | number (value : String) : Derives strict [⟨.number, value⟩] (.number value)
  | string (value : String) : Derives strict [⟨.string, value⟩] (.string value)
  | call {name : Token} {tokens : List Token} {params : List Form} :
      (strict = true → name.kind = .name) → DerivesAll strict tokens params →
      Derives strict (.openParen :: name :: (tokens ++ [.closeParen])) (.call name.value params)

/-- The tokens derive the forms one after the other. -/
inductive DerivesAll (strict : Bool) : List Token → List Form → Prop where
  | nil : DerivesAll strict [] []
  | cons {tokens rest : List Token} {form : Form} {forms : List Form} :
      Derives strict tokens form → DerivesAll strict rest forms →
      DerivesAll strict (tokens ++ rest) (form :: forms)

end

/-- Where something else was needed, `expected` says what. -/
inductive ParseError where
  | unexpectedToken (found : Token) (expected : String)
  | unexpectedEnd (expected : String)
  /-- In strict mode a call is named by a name. -/
  | invalidCallee (found : Token)
  deriving DecidableEq, Repr

def ParseError.message : ParseError → String
  | unexpectedToken found expected =>
      "unexpected " ++ found.describe ++ ", expected " ++ expected
  | unexpectedEnd expected => "unexpected end of input, expected " ++ expected
  | invalidCallee found => "call name must be a name, found " ++ found.describe

/-- A call whose closing parenthesis is still to come. -/
structure OpenCall where
  name : String
  /-- The forms in front of the call, the last one first. -/
  before : List Form

structure Reading where
  /-- The forms read at the current level, the last one first. -/
  level : List Form := []
  /-- The open calls, the innermost one first. -/
  openCalls : List OpenCall := []
  /-- Whether the last token opened a call that has no name yet. -/
  awaitsName : Bool := false
  /-- The call names accepted so far, the last one first. -/
  names : List String := []

namespace Reading

/-- Takes `t` as the name of the call just opened. -/
def enterCall (r : Reading) (t : Token) : Reading where
  level := []
  openCalls := ⟨t.value, r.level⟩ :: r.openCalls
  awaitsName := false
  names := t.value :: r.names

def push (r : Reading) (form : Form) : Reading :=
  { r with level := form :: r.level }

def step (strict : Bool) (r : Reading) (t : Token) : Except ParseError Reading :=
  if r.awaitsName then
    if strict && t.kind != .name then
      .error (.invalidCallee t)
    else
      .ok (r.enterCall t)
  else
    match t.kind with
    | .number => .ok (r.push (.number t.value))
    | .string => .ok (r.push (.string t.value))
    | .paren | .name =>
        if t.isOpen then
          .ok { r with awaitsName := true }
        else
          match t.isClose, r.openCalls with
          | true, call :: outer =>
              .ok { r with
                level := .call call.name r.level.reverse :: call.before
                openCalls := outer }
          | _, _ => .error (.unexpectedToken t "literal or call")

def finish (r : Reading) : Except ParseError Program :=
  if r.awaitsName then
    .error (.unexpectedEnd "call name")
  else
    match r.openCalls with
    | [] => .ok ⟨r.level.reverse⟩
    | _ :: _ => .error (.unexpectedEnd "')'")

end Reading

/-- What reading a list of tokens gives: the call names accepted on the way, also when it fails. -/
structure Parse where
  names : List String
  result : Except ParseError Program

def Reading.run (strict : Bool) : Reading → List Token → Parse
  | r, [] => ⟨r.names.reverse, r.finish⟩
  | r, t :: ts =>
      match r.step strict t with
      | .ok next => run strict next ts
      | .error e => ⟨r.names.reverse, .error e⟩

namespace Program

def parse (strict : Bool) (tokens : List Token) : Parse :=
  Reading.run strict {} tokens

def ofTokens (strict : Bool) (tokens : List Token) : Except ParseError Program :=
  (parse strict tokens).result

end Program

inductive ReadError where
  | lex (cause : LexError)
  | parse (cause : ParseError)
  deriving DecidableEq, Repr

def ReadError.message : ReadError → String
  | lex cause => cause.message
  | parse cause => cause.message

/-- The program that a text spells. Any token may name a call. -/
def Program.ofText (text : String) : Except ReadError Program :=
  match Token.ofText text with
  | .error e => .error (.lex e)
  | .ok tokens =>
      match ofTokens false tokens with
      | .error e => .error (.parse e)
      | .ok program => .ok program

end CallForms

/-!
Tokens: what a source text is made of once the separators between them are gone.

A token's payload is not checked here. Tokens that come out of a text have the payloads their kind
promises, but a caller may build any token, a parenthesis spelled `[` included.
-/

namespace CallForms

inductive TokenKind where
  | paren
  | string
  | number
  | name
  deriving DecidableEq, Repr

def TokenKind.label : TokenKind → String
  | paren => "paren"
  | string => "string"
  | number => "number"
  | name => "name"

def TokenKind.ofLabel? : String → Option TokenKind
  | "paren" => some paren
  | "string" => some string
  | "number" => some number
  | "name" => some name
  | _ => none

structure Token where
  kind : TokenKind
  value : String
  deriving DecidableEq, Repr

namespace Token

def openParen : Token := ⟨.paren, "("⟩

def closeParen : Token := ⟨.paren, ")"⟩

/-- The character that begins and ends a string. -/
def quote : Char := '"'

def isOpen (t : Token) : Bool := t == openParen

def isClose (t : Token) : Bool := t == closeParen

/-- The wording of a token in messages. The payload goes in as it is. -/
def describe (t : Token) : String :=
  t.kind.label ++ " '" ++ t.value ++ "'"

end Token

end CallForms

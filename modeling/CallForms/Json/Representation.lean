import CallForms.Json.Code
import CallForms.Json.Form
import Mathlib.Data.List.Forall2

/-!
Which JSON values stand for which tokens, forms and code.

Every record may be written in either of its two forms, independently of the records around it and
in it. Which tags stand for a kind is a parameter, one for a node itself and one for the nodes
inside it. Values are taken to have no key twice in one object.
-/

namespace CallForms

namespace Json

/-- No object in the value has a key twice. -/
inductive UniqueKeys : Json → Prop where
  | null : UniqueKeys null
  | bool (value : Bool) : UniqueKeys (bool value)
  | number (mantissa : Int) (exponent : Nat) : UniqueKeys (number mantissa exponent)
  | string (value : String) : UniqueKeys (string value)
  | array {items : List Json} : (∀ item ∈ items, UniqueKeys item) → UniqueKeys (array items)
  | object {members : List (String × Json)} : (members.map Prod.fst).Nodup →
      (∀ member ∈ members, UniqueKeys member.2) → UniqueKeys (object members)

/-- The value is a record of these named fields. -/
inductive IsRecord (fields : List (String × Json)) : Json → Prop where
  | object {members : List (String × Json)} : (∀ field ∈ fields, field ∈ members) →
      IsRecord fields (object members)
  | array : IsRecord fields (array (fields.map Prod.snd))

/-- The value is a tag of the kind with this name and number. -/
inductive IsTag (name : String) (place : Nat) : Tagging → Json → Prop where
  | name {tagging : Tagging} : IsTag name place tagging (string name)
  | place : IsTag name place .numbered (number place 0)

/-- The value is a tagged record of these named fields. -/
inductive IsTagged (tag : Json) (fields : List (String × Json)) : Json → Prop where
  | object {members : List (String × Json)} : ("type", tag) ∈ members →
      (∀ field ∈ fields, field ∈ members) → IsTagged tag fields (object members)
  | array : IsTagged tag fields (array (tag :: fields.map Prod.snd))

/-- The value is a record of a body, whose items stand for these. -/
def RepresentsBody {α : Type} (represents : Json → α → Prop) (json : Json) (body : List α) : Prop :=
  ∃ items, json.IsRecord [("body", .array items)] ∧ List.Forall₂ represents items body

end Json

/-- The value stands for the kind of token. -/
inductive TokenKind.Represents : Json → TokenKind → Prop where
  | label (kind : TokenKind) : Represents (.string kind.label) kind
  | object (kind : TokenKind) : Represents (.object [(kind.label, .null)]) kind

/-- The value stands for the token. -/
def Token.Represents (json : Json) (t : Token) : Prop :=
  ∃ kind, TokenKind.Represents kind t.kind ∧
    json.IsRecord [("type", kind), ("value", .string t.value)]

/-- The value stands for the form. Its own tag is one that `tagging` understands, those of the forms
in it are ones that `inside` understands. -/
inductive Form.Represents (inside : Json.Tagging) : Json.Tagging → Json → Form → Prop where
  | number {tagging : Json.Tagging} {tag json : Json} {value : String} :
      tag.IsTag "NumberLiteral" 1 tagging → Json.IsTagged tag [("value", .string value)] json →
      Form.Represents inside tagging json (.number value)
  | string {tagging : Json.Tagging} {tag json : Json} {value : String} :
      tag.IsTag "StringLiteral" 2 tagging → Json.IsTagged tag [("value", .string value)] json →
      Form.Represents inside tagging json (.string value)
  | call {tagging : Json.Tagging} {tag json : Json} {name : String} {items : List Json}
      {params : List Form} :
      tag.IsTag "CallExpression" 0 tagging →
      Json.IsTagged tag [("name", .string name), ("params", .array items)] json →
      List.Forall₂ (Form.Represents inside inside) items params →
      Form.Represents inside tagging json (.call name params)

def Program.Represents (inside : Json.Tagging) (json : Json) (p : Program) : Prop :=
  json.RepresentsBody (Form.Represents inside .named) p.body

/-- The value stands for the code. Its own tag is one that `tagging` understands, those of the code
in it are ones that `inside` understands. -/
inductive Code.Represents (inside : Json.Tagging) : Json.Tagging → Json → Code → Prop where
  | statement {tagging : Json.Tagging} {tag json inner : Json} {expression : Code} :
      tag.IsTag "ExpressionStatement" 0 tagging → Json.IsTagged tag [("expression", inner)] json →
      Code.Represents inside inside inner expression →
      Code.Represents inside tagging json (.statement expression)
  | call {tagging : Json.Tagging} {tag json record : Json} {callee : String} {items : List Json}
      {arguments : List Code} :
      tag.IsTag "CallExpression" 1 tagging →
      Json.IsTagged tag [("callee", record), ("arguments", .array items)] json →
      record.IsRecord [("name", .string callee)] →
      List.Forall₂ (Code.Represents inside inside) items arguments →
      Code.Represents inside tagging json (.call callee arguments)
  | identifier {tagging : Json.Tagging} {tag json : Json} {name : String} :
      tag.IsTag "Identifier" 2 tagging → Json.IsTagged tag [("name", .string name)] json →
      Code.Represents inside tagging json (.identifier name)
  | number {tagging : Json.Tagging} {tag json : Json} {value : String} :
      tag.IsTag "NumberLiteral" 3 tagging → Json.IsTagged tag [("value", .string value)] json →
      Code.Represents inside tagging json (.number value)
  | string {tagging : Json.Tagging} {tag json : Json} {value : String} :
      tag.IsTag "StringLiteral" 4 tagging → Json.IsTagged tag [("value", .string value)] json →
      Code.Represents inside tagging json (.string value)

def Listing.Represents (inside : Json.Tagging) (json : Json) (listing : Listing) : Prop :=
  json.RepresentsBody (Code.Represents inside .named) listing.body

end CallForms

import CallForms.Json.Code
import CallForms.Json.Form

/-!
The values that are written for tokens, forms and code, up to the order of the keys.

A record is written as an object that holds its tag and its fields and nothing else.
-/

namespace CallForms

namespace Json

/-- The value is an object of exactly these members, in any order. -/
inductive IsObject (fields : List (String × Json)) : Json → Prop where
  | intro {members : List (String × Json)} : members.Perm fields → IsObject fields (object members)

mutual

/-- The values differ at most in the order of the keys in their objects. -/
inductive Same : Json → Json → Prop where
  | null : Same null null
  | bool (value : Bool) : Same (bool value) (bool value)
  | number (mantissa : Int) (exponent : Nat) :
      Same (number mantissa exponent) (number mantissa exponent)
  | string (value : String) : Same (string value) (string value)
  | array {items others : List Json} : SameAll items others → Same (array items) (array others)
  | object {members matched others : List (String × Json)} : SameMembers members matched →
      matched.Perm others → Same (object members) (object others)

inductive SameAll : List Json → List Json → Prop where
  | nil : SameAll [] []
  | cons {item other : Json} {items others : List Json} : Same item other → SameAll items others →
      SameAll (item :: items) (other :: others)

/-- The members have the same keys one by one, and the same values under them. -/
inductive SameMembers : List (String × Json) → List (String × Json) → Prop where
  | nil : SameMembers [] []
  | cons {key : String} {value other : Json} {members others : List (String × Json)} :
      Same value other → SameMembers members others →
      SameMembers ((key, value) :: members) ((key, other) :: others)

end

/-- The value is written for a body whose items are canonical. -/
def CanonicalBody (canonical : Json → Prop) (json : Json) : Prop :=
  ∃ items, json.IsObject [("type", .string "Program"), ("body", .array items)] ∧
    ∀ item ∈ items, canonical item

end Json

def Token.Canonical (json : Json) : Prop :=
  ∃ kind value, json.IsObject [("type", .string (TokenKind.label kind)), ("value", .string value)]

inductive Form.Canonical : Json → Prop where
  | number {json : Json} {value : String} :
      json.IsObject [("type", .string "NumberLiteral"), ("value", .string value)] →
      Form.Canonical json
  | string {json : Json} {value : String} :
      json.IsObject [("type", .string "StringLiteral"), ("value", .string value)] →
      Form.Canonical json
  | call {json : Json} {name : String} {items : List Json} :
      json.IsObject
        [("type", .string "CallExpression"), ("name", .string name), ("params", .array items)] →
      (∀ item ∈ items, Form.Canonical item) → Form.Canonical json

def Program.Canonical (json : Json) : Prop :=
  json.CanonicalBody Form.Canonical

inductive Code.Canonical : Json → Prop where
  | statement {json inner : Json} :
      json.IsObject [("type", .string "ExpressionStatement"), ("expression", inner)] →
      Code.Canonical inner → Code.Canonical json
  | call {json record : Json} {callee : String} {items : List Json} :
      json.IsObject
        [("type", .string "CallExpression"), ("callee", record), ("arguments", .array items)] →
      record.IsObject [("name", .string callee)] → (∀ item ∈ items, Code.Canonical item) →
      Code.Canonical json
  | identifier {json : Json} {name : String} :
      json.IsObject [("type", .string "Identifier"), ("name", .string name)] → Code.Canonical json
  | number {json : Json} {value : String} :
      json.IsObject [("type", .string "NumberLiteral"), ("value", .string value)] →
      Code.Canonical json
  | string {json : Json} {value : String} :
      json.IsObject [("type", .string "StringLiteral"), ("value", .string value)] →
      Code.Canonical json

def Listing.Canonical (json : Json) : Prop :=
  json.CanonicalBody Code.Canonical

end CallForms

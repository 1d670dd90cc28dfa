import CallForms.Json.Representation

/-!
Values that are spelled differently, and values that are spoiled.

A record may be spelled in either of its two forms, with its keys in any order and next to any other
keys, and so may the records in it. The fields themselves may hold anything here, and an object need
not hold all of them, so that unreadable values have their spellings too. A value is spoiled by a
value somewhere in it that stands for nothing where it is.
-/

namespace CallForms

/-- The values are objects that hold the same under each of the keys. -/
inductive Json.Rearranged (keys : List String) : Json → Json → Prop where
  | object {members others : List (String × Json)} :
      (∀ key ∈ keys, ∀ value, (key, value) ∈ members ↔ (key, value) ∈ others) →
      Rearranged keys (.object members) (.object others)

/-- The values are records of a body, whose items are equal one by one or spellings. -/
inductive Json.RespelledBody (respelled : Json → Json → Prop) (json other : Json) : Prop where
  | keys : Json.Rearranged ["body"] json other → RespelledBody respelled json other
  | record {body : Json} : json.IsRecord [("body", body)] → other.IsRecord [("body", body)] →
      RespelledBody respelled json other
  | body {items others : List Json} : json.IsRecord [("body", .array items)] →
      other.IsRecord [("body", .array others)] → items.length = others.length →
      (∀ pair ∈ items.zip others, respelled pair.1 pair.2) → RespelledBody respelled json other

/-- An item of the body is spoiled. -/
def Json.SpoiledBody (spoiled : Json → Prop) (json : Json) : Prop :=
  ∃ items, json.IsRecord [("body", .array items)] ∧ ∃ item ∈ items, spoiled item

/-- The values are spellings of one token. -/
inductive Token.Respelled (json other : Json) : Prop where
  | keys : Json.Rearranged ["type", "value"] json other → Token.Respelled json other
  | record {kind value : Json} : json.IsRecord [("type", kind), ("value", value)] →
      other.IsRecord [("type", kind), ("value", value)] → Token.Respelled json other

/-- The values are spellings of one form. -/
inductive Form.Respelled : Json → Json → Prop where
  | same (json : Json) : Form.Respelled json json
  | keys {json other : Json} : Json.Rearranged ["type", "name", "params", "value"] json other →
      Form.Respelled json other
  | number {tag value json other : Json} : tag.IsTag "NumberLiteral" 1 .numbered →
      Json.IsTagged tag [("value", value)] json → Json.IsTagged tag [("value", value)] other →
      Form.Respelled json other
  | string {tag value json other : Json} : tag.IsTag "StringLiteral" 2 .numbered →
      Json.IsTagged tag [("value", value)] json → Json.IsTagged tag [("value", value)] other →
      Form.Respelled json other
  | call {tag name params json other : Json} : tag.IsTag "CallExpression" 0 .numbered →
      Json.IsTagged tag [("name", name), ("params", params)] json →
      Json.IsTagged tag [("name", name), ("params", params)] other → Form.Respelled json other
  | params {tag name json other : Json} {items others : List Json} :
      tag.IsTag "CallExpression" 0 .numbered →
      Json.IsTagged tag [("name", name), ("params", .array items)] json →
      Json.IsTagged tag [("name", name), ("params", .array others)] other →
      items.length = others.length →
      (∀ pair ∈ items.zip others, Form.Respelled pair.1 pair.2) → Form.Respelled json other

def Program.Respelled (json other : Json) : Prop :=
  json.RespelledBody Form.Respelled other

/-- The values are equal or spellings of one callee. -/
inductive Code.RespelledCallee (json : Json) : Json → Prop where
  | same : Code.RespelledCallee json json
  | keys {other : Json} : Json.Rearranged ["name"] json other → Code.RespelledCallee json other
  | record {name other : Json} : json.IsRecord [("name", name)] →
      other.IsRecord [("name", name)] → Code.RespelledCallee json other

/-- The values are spellings of one piece of code. -/
inductive Code.Respelled : Json → Json → Prop where
  | same (json : Json) : Code.Respelled json json
  | keys {json other : Json} :
      Json.Rearranged ["type", "expression", "callee", "arguments", "name", "value"] json other →
      Code.Respelled json other
  | statement {tag inner respelled json other : Json} :
      tag.IsTag "ExpressionStatement" 0 .numbered →
      Json.IsTagged tag [("expression", inner)] json →
      Json.IsTagged tag [("expression", respelled)] other → Code.Respelled inner respelled →
      Code.Respelled json other
  | call {tag callee respelled arguments json other : Json} :
      tag.IsTag "CallExpression" 1 .numbered →
      Json.IsTagged tag [("callee", callee), ("arguments", arguments)] json →
      Json.IsTagged tag [("callee", respelled), ("arguments", arguments)] other →
      Code.RespelledCallee callee respelled → Code.Respelled json other
  | arguments {tag callee respelled json other : Json} {items others : List Json} :
      tag.IsTag "CallExpression" 1 .numbered →
      Json.IsTagged tag [("callee", callee), ("arguments", .array items)] json →
      Json.IsTagged tag [("callee", respelled), ("arguments", .array others)] other →
      Code.RespelledCallee callee respelled → items.length = others.length →
      (∀ pair ∈ items.zip others, Code.Respelled pair.1 pair.2) → Code.Respelled json other
  | identifier {tag name json other : Json} : tag.IsTag "Identifier" 2 .numbered →
      Json.IsTagged tag [("name", name)] json → Json.IsTagged tag [("name", name)] other →
      Code.Respelled json other
  | number {tag value json other : Json} : tag.IsTag "NumberLiteral" 3 .numbered →
      Json.IsTagged tag [("value", value)] json → Json.IsTagged tag [("value", value)] other →
      Code.Respelled json other
  | string {tag value json other : Json} : tag.IsTag "StringLiteral" 4 .numbered →
      Json.IsTagged tag [("value", value)] json → Json.IsTagged tag [("value", value)] other →
      Code.Respelled json other

def Listing.Respelled (json other : Json) : Prop :=
  json.RespelledBody Code.Respelled other

/-- The value stands for no form, or a form in it is spoiled. -/
inductive Form.Spoiled : Json.Tagging → Json → Prop where
  | here {tagging : Json.Tagging} {json : Json} :
      (∀ form, ¬ Form.Represents .numbered tagging json form) → Form.Spoiled tagging json
  | param {tagging : Json.Tagging} {tag name json item : Json} {items : List Json} :
      tag.IsTag "CallExpression" 0 .numbered →
      Json.IsTagged tag [("name", name), ("params", .array items)] json → item ∈ items →
      Form.Spoiled .numbered item → Form.Spoiled tagging json

def Program.Spoiled (json : Json) : Prop :=
  json.SpoiledBody (Form.Spoiled .named)

/-- The value stands for no code, or a piece of code in it is spoiled. -/
inductive Code.Spoiled : Json.Tagging → Json → Prop where
  | here {tagging : Json.Tagging} {json : Json} :
      (∀ code, ¬ Code.Represents .numbered tagging json code) → Code.Spoiled tagging json
  | expression {tagging : Json.Tagging} {tag json inner : Json} :
      tag.IsTag "ExpressionStatement" 0 .numbered →
      Json.IsTagged tag [("expression", inner)] json → Code.Spoiled .numbered inner →
      Code.Spoiled tagging json
  | argument {tagging : Json.Tagging} {tag callee json item : Json} {items : List Json} :
      tag.IsTag "CallExpression" 1 .numbered →
      Json.IsTagged tag [("callee", callee), ("arguments", .array items)] json → item ∈ items →
      Code.Spoiled .numbered item → Code.Spoiled tagging json

def Listing.Spoiled (json : Json) : Prop :=
  json.SpoiledBody (Code.Spoiled .named)

end CallForms

import CallForms.Form.Basic
import CallForms.Json.Basic
import CallForms.Token.Basic

/-!
Tokens, forms and programs as JSON values. The tag of a form that stands in another form may be a
number; a form that stands alone or in the body of a program is tagged by name.
-/

namespace CallForms

/-- A kind is its label, or an object that maps just that label to null. -/
def TokenKind.ofJson? : Json → Option TokenKind
  | .string label => ofLabel? label
  | .object [(label, .null)] => ofLabel? label
  | _ => none

namespace Token

def toJson (t : Token) : Json :=
  .tagged t.kind.label [("value", .string t.value)]

def ofJson? (json : Json) : Option Token :=
  match json.fields? ["type", "value"] with
  | some [kind, .string value] => (TokenKind.ofJson? kind).map fun kind => ⟨kind, value⟩
  | _ => none

end Token

namespace Form

mutual

def toJson : Form → Json
  | number value => .tagged NodeKind.number.label [("value", .string value)]
  | string value => .tagged NodeKind.string.label [("value", .string value)]
  | call name params =>
      .tagged NodeKind.call.label [("name", .string name), ("params", .array (toJsonAll params))]

def toJsonAll : List Form → List Json
  | [] => []
  | form :: rest => form.toJson :: toJsonAll rest

end

mutual

/-- Reads a form whose own tag is understood as given. -/
def ofJsonTagged? (tagging : Json.Tagging) (json : Json) : Option Form :=
  match json.tag?.bind (Json.kindOfTag? kinds NodeKind.label tagging) with
  | some .number =>
      match json.taggedFields? ["value"] with
      | some [.string value] => some (number value)
      | _ => none
  | some .string =>
      match json.taggedFields? ["value"] with
      | some [.string value] => some (string value)
      | _ => none
  | some .call =>
      match h : json.taggedFields? ["name", "params"] with
      | some [.string name, .array params] =>
          have : sizeOf params < sizeOf json := by
            have := Json.sizeOf_lt_of_mem_taggedFields? h
              (List.mem_cons_of_mem _ (List.mem_singleton_self _))
            simp only [Json.array.sizeOf_spec] at this
            omega
          (ofJsonAll? .numbered params).map (call name)
      | _ => none
  | some .program | none => none
termination_by sizeOf json

def ofJsonAll? (tagging : Json.Tagging) : List Json → Option (List Form)
  | [] => some []
  | json :: rest =>
      match ofJsonTagged? tagging json, ofJsonAll? tagging rest with
      | some form, some forms => some (form :: forms)
      | _, _ => none
termination_by items => sizeOf items

end

def ofJson? (json : Json) : Option Form :=
  ofJsonTagged? .named json

end Form

namespace Program

def toJson (p : Program) : Json :=
  .ofBody Form.toJson p.body

def ofJson? (json : Json) : Option Program :=
  (json.body? Form.ofJson?).map Program.mk

end Program

end CallForms

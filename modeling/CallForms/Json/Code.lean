import CallForms.Code.Basic
import CallForms.Json.Basic

/-!
Code and listings as JSON values. A callee is a record of its own, without a tag. The tag of code
that stands in other code may be a number; code that stands alone or in a listing is tagged by
name.
-/

namespace CallForms

namespace Code

mutual

def toJson : Code → Json
  | statement expression =>
      .tagged CodeKind.statement.label [("expression", expression.toJson)]
  | call callee arguments =>
      .tagged CodeKind.call.label
        [("callee", .object [("name", .string callee)]),
          ("arguments", .array (toJsonAll arguments))]
  | identifier name => .tagged CodeKind.identifier.label [("name", .string name)]
  | number value => .tagged CodeKind.number.label [("value", .string value)]
  | string value => .tagged CodeKind.string.label [("value", .string value)]

def toJsonAll : List Code → List Json
  | [] => []
  | code :: rest => code.toJson :: toJsonAll rest

end

def calleeOfJson? (json : Json) : Option String :=
  match json.fields? ["name"] with
  | some [.string name] => some name
  | _ => none

mutual

/-- Reads code whose own tag is understood as given. -/
def ofJsonTagged? (tagging : Json.Tagging) (json : Json) : Option Code :=
  match json.tag?.bind (Json.kindOfTag? kinds CodeKind.label tagging) with
  | some .statement =>
      match h : json.taggedFields? ["expression"] with
      | some [expression] =>
          have := Json.sizeOf_lt_of_mem_taggedFields? h (List.mem_singleton_self _)
          (ofJsonTagged? .numbered expression).map statement
      | _ => none
  | some .call =>
      match h : json.taggedFields? ["callee", "arguments"] with
      | some [callee, .array arguments] =>
          have : sizeOf arguments < sizeOf json := by
            have := Json.sizeOf_lt_of_mem_taggedFields? h
              (List.mem_cons_of_mem _ (List.mem_singleton_self _))
            simp only [Json.array.sizeOf_spec] at this
            omega
          match calleeOfJson? callee, ofJsonAll? .numbered arguments with
          | some name, some arguments => some (call name arguments)
          | _, _ => none
      | _ => none
  | some .identifier =>
      match json.taggedFields? ["name"] with
      | some [.string name] => some (identifier name)
      | _ => none
  | some .number =>
      match json.taggedFields? ["value"] with
      | some [.string value] => some (number value)
      | _ => none
  | some .string =>
      match json.taggedFields? ["value"] with
      | some [.string value] => some (string value)
      | _ => none
  | none => none
termination_by sizeOf json

def ofJsonAll? (tagging : Json.Tagging) : List Json → Option (List Code)
  | [] => some []
  | json :: rest =>
      match ofJsonTagged? tagging json, ofJsonAll? tagging rest with
      | some code, some codes => some (code :: codes)
      | _, _ => none
termination_by items => sizeOf items

end

def ofJson? (json : Json) : Option Code :=
  ofJsonTagged? .named json

end Code

namespace Listing

def toJson (listing : Listing) : Json :=
  .ofBody Code.toJson listing.body

def ofJson? (json : Json) : Option Listing :=
  (json.body? Code.ofJson?).map Listing.mk

end Listing

end CallForms

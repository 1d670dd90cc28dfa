/-!
JSON values, and the two ways a record is written as one.

A record is an object that holds its fields under their names, in any order and next to any other
keys, or an array of exactly its fields in their order. A tagged record gives its kind as well:
under the key `type` in an object, in front of the fields in an array. The tag is the name of the
kind; where numbered tags are understood, it may be the kind's place among the kinds instead. A body
is a record of a list, which is written with a tag and read without asking for it.
-/

namespace CallForms

inductive Json where
  | null
  | bool (value : Bool)
  /-- The decimal `mantissa * 10 ^ (-exponent)`, as it is written: `1` and `1.0` are two values. -/
  | number (mantissa : Int) (exponent : Nat)
  | string (value : String)
  | array (items : List Json)
  | object (members : List (String × Json))
  deriving Inhabited

namespace Json

/-- The values under the given keys, if all of them are there. -/
def lookupAll (members : List (String × Json)) : (keys : List String) → Option (List Json)
  | [] => some []
  | key :: keys =>
      match members.lookup key, lookupAll members keys with
      | some value, some values => some (value :: values)
      | _, _ => none

/-- The items of an array that is as long as the list of names. -/
def exactly (names : List String) (items : List Json) : Option (List Json) :=
  if items.length = names.length then some items else none

/-- The fields of a record without a tag, in the order of their names. -/
def fields? (names : List String) : Json → Option (List Json)
  | object members => lookupAll members names
  | array items => exactly names items
  | _ => none

/-- The fields of a tagged record, in the order of their names. -/
def taggedFields? (names : List String) : Json → Option (List Json)
  | object members => lookupAll members names
  | array (_ :: items) => exactly names items
  | _ => none

def tag? : Json → Option Json
  | object members => members.lookup "type"
  | array (tag :: _) => some tag
  | _ => none

/-- Which tags are understood: names only, or numbers as well. -/
inductive Tagging where
  | named
  | numbered
  deriving DecidableEq, Repr

/-- The kind that a tag stands for. Kinds are numbered from zero in the order of the list, and a
number is understood only if it is written without decimals. -/
def kindOfTag? {κ : Type} (kinds : List κ) (label : κ → String) : Tagging → Json → Option κ
  | _, string name => kinds.find? fun kind => label kind = name
  | .numbered, number (.ofNat place) 0 => kinds[place]?
  | _, _ => none

def tagged (tag : String) (members : List (String × Json)) : Json :=
  object (("type", string tag) :: members)

section Body

variable {α : Type}

def ofBody (write : α → Json) (body : List α) : Json :=
  tagged "Program" [("body", array (body.map write))]

/-- Reads every item; one that cannot be read spoils all. -/
def body? (read : Json → Option α) (json : Json) : Option (List α) :=
  match json.fields? ["body"] with
  | some [array items] => items.mapM read
  | _ => none

end Body

theorem sizeOf_lt_of_lookup {members : List (String × Json)} {key : String} {value : Json}
    (h : members.lookup key = some value) : sizeOf value < sizeOf members := by
  induction members with
  | nil => simp at h
  | cons member rest ih =>
      obtain ⟨name, content⟩ := member
      rw [List.lookup_cons] at h
      simp only [List.cons.sizeOf_spec, Prod.mk.sizeOf_spec]
      split at h
      · cases h
        omega
      · have := ih h
        omega

theorem sizeOf_lt_of_mem_lookupAll {members : List (String × Json)} {keys : List String}
    {values : List Json} {value : Json} (h : lookupAll members keys = some values)
    (hmem : value ∈ values) : sizeOf value < sizeOf members := by
  induction keys generalizing values with
  | nil =>
      cases h
      cases hmem
  | cons key keys ih =>
      unfold lookupAll at h
      split at h
      · next first others hfirst hothers =>
        cases h
        cases hmem with
        | head => exact sizeOf_lt_of_lookup hfirst
        | tail _ hrest => exact ih hothers hrest
      · cases h

theorem sizeOf_lt_of_mem_exactly {names : List String} {items values : List Json} {value : Json}
    (h : exactly names items = some values) (hmem : value ∈ values) :
    sizeOf value < sizeOf items := by
  unfold exactly at h
  split at h
  · cases h
    exact List.sizeOf_lt_of_mem hmem
  · cases h

theorem sizeOf_lt_of_mem_taggedFields? {names : List String} {json value : Json}
    {values : List Json} (h : json.taggedFields? names = some values) (hmem : value ∈ values) :
    sizeOf value < sizeOf json := by
  unfold taggedFields? at h
  split at h
  · have := sizeOf_lt_of_mem_lookupAll h hmem
    simp only [object.sizeOf_spec]
    omega
  · have := sizeOf_lt_of_mem_exactly h hmem
    simp only [array.sizeOf_spec, List.cons.sizeOf_spec]
    omega
  · cases h

end Json

end CallForms

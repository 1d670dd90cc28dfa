import CallForms.Json.Representation
import Mathlib.Data.List.Nodup

/-!
Reading a record is finding a record.

In a value without a key twice, the fields that a reader finds under their names are the fields
that the value is a record of, in an object as in an array. The same holds of tagged records, and a
tag is found to be of a kind exactly if it is the name of the kind or, where numbers are understood,
its place among the kinds. A list is read item by item.
-/

namespace CallForms

namespace Json

section Lookup

variable {members : List (String × Json)}

theorem lookup_eq_some_iff (hkeys : (members.map Prod.fst).Nodup) {key : String} {value : Json} :
    members.lookup key = some value ↔ (key, value) ∈ members := by
  induction members with
  | nil => simp
  | cons member rest ih =>
      obtain ⟨name, content⟩ := member
      rw [List.map_cons, List.nodup_cons] at hkeys
      by_cases hkey : key = name
      · have hrest : (key, value) ∉ rest := by
          intro h
          exact hkeys.1 (List.mem_map.mpr ⟨(key, value), h, hkey⟩)
        simp [hkey, hkey ▸ hrest, eq_comm]
      · have hne : (key == name) = false := beq_eq_false_iff_ne.mpr hkey
        simp [List.lookup_cons, hne, ih hkeys.2, hkey]

theorem lookupAll_cons_eq_some_iff {name : String} {names : List String} {values : List Json} :
    lookupAll members (name :: names) = some values ↔
      ∃ value others, values = value :: others ∧ members.lookup name = some value ∧
        lookupAll members names = some others := by
  cases hname : members.lookup name <;> cases hnames : lookupAll members names <;>
    simp [lookupAll, hname, hnames, eq_comm]

theorem lookupAll_eq_some_iff (hkeys : (members.map Prod.fst).Nodup) {names : List String}
    {values : List Json} :
    lookupAll members names = some values ↔
      values.length = names.length ∧ ∀ field ∈ names.zip values, field ∈ members := by
  induction names generalizing values with
  | nil => simp [lookupAll, eq_comm]
  | cons name names ih =>
      rw [lookupAll_cons_eq_some_iff]
      cases values with
      | nil => simp
      | cons value values =>
          have hvalue : members.lookup name = some value ↔ (name, value) ∈ members :=
            lookup_eq_some_iff hkeys
          simp only [List.cons.injEq, List.length_cons, Nat.add_right_cancel_iff,
            List.zip_cons_cons, List.forall_mem_cons, ← hvalue]
          constructor
          · rintro ⟨_, _, ⟨rfl, rfl⟩, hname, hnames⟩
            obtain ⟨hlength, hrest⟩ := ih.mp hnames
            exact ⟨hlength, hname, hrest⟩
          · rintro ⟨hlength, hname, hrest⟩
            exact ⟨value, values, ⟨rfl, rfl⟩, hname, ih.mpr ⟨hlength, hrest⟩⟩

end Lookup

theorem exactly_eq_some_iff {names : List String} {items values : List Json} :
    exactly names items = some values ↔
      values.length = names.length ∧ (names.zip values).map Prod.snd = items := by
  constructor
  · intro h
    rw [exactly] at h
    split at h
    · next hlength =>
      cases h
      exact ⟨hlength, List.map_snd_zip (Nat.le_of_eq hlength)⟩
    · cases h
  · rintro ⟨hlength, hitems⟩
    rw [List.map_snd_zip (Nat.le_of_eq hlength)] at hitems
    simp [exactly, ← hitems, hlength]

section Record

variable {json : Json} {names : List String} {values : List Json}

theorem fields?_eq_some_iff (hjson : json.UniqueKeys) :
    json.fields? names = some values ↔
      values.length = names.length ∧ json.IsRecord (names.zip values) := by
  cases hjson with
  | object hkeys _ =>
      rw [fields?, lookupAll_eq_some_iff hkeys]
      exact and_congr_right fun _ => ⟨.object, fun | .object h => h⟩
  | array _ =>
      rw [fields?, exactly_eq_some_iff]
      exact and_congr_right fun _ => ⟨fun | rfl => .array, fun | .array => rfl⟩
  | null | bool | number | string =>
      simp only [fields?, reduceCtorEq, false_iff, not_and]
      rintro - ⟨⟩

theorem taggedFields?_eq_some_iff (hjson : json.UniqueKeys) {tag : Json} :
    json.tag? = some tag ∧ json.taggedFields? names = some values ↔
      values.length = names.length ∧ IsTagged tag (names.zip values) json := by
  cases hjson with
  | object hkeys _ =>
      rw [tag?, taggedFields?, lookupAll_eq_some_iff hkeys, lookup_eq_some_iff hkeys, and_left_comm]
      exact and_congr_right fun _ =>
        ⟨fun ⟨ht, hf⟩ => .object ht hf, fun | .object ht hf => ⟨ht, hf⟩⟩
  | @array items _ =>
      cases items with
      | nil =>
          simp only [tag?, reduceCtorEq, false_and, false_iff, not_and]
          rintro - ⟨⟩
      | cons first rest =>
          rw [tag?, taggedFields?, exactly_eq_some_iff, and_left_comm]
          refine and_congr_right fun _ => ⟨?_, ?_⟩
          · rintro ⟨⟨rfl⟩, rfl⟩
            exact .array
          · rintro ⟨⟩
            exact ⟨rfl, rfl⟩
  | null | bool | number | string =>
      simp only [tag?, reduceCtorEq, false_and, false_iff, not_and]
      rintro - ⟨⟩

end Record

section Parts

variable {json : Json} {fields : List (String × Json)}

theorem UniqueKeys.of_isRecord (hjson : json.UniqueKeys) (h : json.IsRecord fields)
    {field : String × Json} (hfield : field ∈ fields) : field.2.UniqueKeys := by
  cases h with
  | object hfields =>
      cases hjson with
      | object _ hmembers => exact hmembers field (hfields field hfield)
  | array =>
      cases hjson with
      | array hitems => exact hitems field.2 (List.mem_map_of_mem hfield)

theorem UniqueKeys.of_isTagged (hjson : json.UniqueKeys) {tag : Json} (h : IsTagged tag fields json)
    {field : String × Json} (hfield : field ∈ fields) : field.2.UniqueKeys := by
  cases h with
  | object _ hfields =>
      cases hjson with
      | object _ hmembers => exact hmembers field (hfields field hfield)
  | array =>
      cases hjson with
      | array hitems => exact hitems field.2 (List.mem_cons_of_mem _ (List.mem_map_of_mem hfield))

theorem UniqueKeys.of_mem_array {items : List Json} (h : (Json.array items).UniqueKeys)
    {item : Json} (hitem : item ∈ items) : item.UniqueKeys := by
  cases h with
  | array hitems => exact hitems item hitem

@[simp] theorem uniqueKeys_null : null.UniqueKeys := .null

@[simp] theorem uniqueKeys_number (mantissa : Int) (exponent : Nat) :
    (number mantissa exponent).UniqueKeys := .number mantissa exponent

@[simp] theorem uniqueKeys_string (value : String) : (string value).UniqueKeys := .string value

@[simp] theorem uniqueKeys_array_iff {items : List Json} :
    (array items).UniqueKeys ↔ ∀ item ∈ items, item.UniqueKeys :=
  ⟨fun h _ hitem => h.of_mem_array hitem, .array⟩

@[simp] theorem uniqueKeys_object_iff {members : List (String × Json)} :
    (object members).UniqueKeys ↔
      (members.map Prod.fst).Nodup ∧ ∀ member ∈ members, member.2.UniqueKeys :=
  ⟨fun | .object hkeys hmembers => ⟨hkeys, hmembers⟩, fun h => .object h.1 h.2⟩

end Parts

/-- Which tags a kind has, if no two kinds have one name. -/
theorem kindOfTag?_eq_some_iff {κ : Type} {kinds : List κ} {label : κ → String}
    (hlabels : (kinds.map label).Nodup) {place : Nat} {kind : κ}
    (hplace : kinds[place]? = some kind) {tagging : Tagging} {tag : Json} :
    kindOfTag? kinds label tagging tag = some kind ↔ tag.IsTag (label kind) place tagging := by
  constructor
  · intro h
    unfold kindOfTag? at h
    split at h
    · next name =>
      have hname : label kind = name := by simpa using List.find?_some h
      rw [← hname]
      exact .name
    · next other =>
      obtain ⟨hlength, -⟩ := List.getElem?_eq_some_iff.mp h
      have hother : other = place :=
        (List.getElem?_inj hlength hlabels.of_map).mp (h.trans hplace.symm)
      rw [hother]
      exact .place
    · cases h
  · have hmem : kind ∈ kinds := List.mem_of_getElem? hplace
    rintro ⟨⟩
    · have hsome : (kinds.find? fun other => label other = label kind).isSome :=
        List.find?_isSome.mpr ⟨kind, hmem, by simp⟩
      obtain ⟨found, hfound⟩ := Option.isSome_iff_exists.mp hsome
      have hname : label found = label kind := by simpa using List.find?_some hfound
      have hkind := List.inj_on_of_nodup_map hlabels (List.mem_of_find?_eq_some hfound) hmem hname
      rw [kindOfTag?, hfound, hkind]
    · exact hplace

/-- A value is read as a record of a kind exactly if it is a record with a tag of that kind. -/
theorem kind_and_fields_iff {κ : Type} {kinds : List κ} {label : κ → String}
    (hlabels : (kinds.map label).Nodup) {place : Nat} {kind : κ}
    (hplace : kinds[place]? = some kind) {json : Json} (hjson : json.UniqueKeys)
    (tagging : Tagging) (names : List String) (values : List Json) :
    json.tag?.bind (kindOfTag? kinds label tagging) = some kind ∧
        json.taggedFields? names = some values ↔
      values.length = names.length ∧
        ∃ tag, tag.IsTag (label kind) place tagging ∧ IsTagged tag (names.zip values) json := by
  simp only [Option.bind_eq_some_iff, kindOfTag?_eq_some_iff hlabels hplace]
  constructor
  · rintro ⟨⟨tag, htag, hkind⟩, hfields⟩
    obtain ⟨hlength, hrecord⟩ := (taggedFields?_eq_some_iff hjson).mp ⟨htag, hfields⟩
    exact ⟨hlength, tag, hkind, hrecord⟩
  · rintro ⟨hlength, tag, hkind, hrecord⟩
    obtain ⟨htag, hfields⟩ := (taggedFields?_eq_some_iff hjson).mpr ⟨hlength, hrecord⟩
    exact ⟨⟨tag, htag, hkind⟩, hfields⟩

theorem kind_and_field_iff {κ : Type} {kinds : List κ} {label : κ → String}
    (hlabels : (kinds.map label).Nodup) {place : Nat} {kind : κ}
    (hplace : kinds[place]? = some kind) {json : Json} (hjson : json.UniqueKeys)
    (tagging : Tagging) (name : String) (value : Json) :
    json.tag?.bind (kindOfTag? kinds label tagging) = some kind ∧
        json.taggedFields? [name] = some [value] ↔
      ∃ tag, tag.IsTag (label kind) place tagging ∧ IsTagged tag [(name, value)] json := by
  rw [kind_and_fields_iff hlabels hplace hjson tagging [name] [value]]
  simp

end Json

section Matching

variable {α β : Type} {R S : α → β → Prop} {left : List α} {right : List β}

theorem forall₂_imp_of_mem (h : ∀ a ∈ left, ∀ b ∈ right, R a b → S a b)
    (hmatch : List.Forall₂ R left right) : List.Forall₂ S left right := by
  rw [List.forall₂_iff_zip] at hmatch ⊢
  refine ⟨hmatch.1, ?_⟩
  intro a b hab
  obtain ⟨ha, hb⟩ := List.of_mem_zip hab
  exact h a ha b hb (hmatch.2 hab)

theorem forall₂_congr_of_mem (h : ∀ a ∈ left, ∀ b ∈ right, (R a b ↔ S a b)) :
    List.Forall₂ R left right ↔ List.Forall₂ S left right :=
  ⟨forall₂_imp_of_mem fun a ha b hb => (h a ha b hb).mp,
    forall₂_imp_of_mem fun a ha b hb => (h a ha b hb).mpr⟩

theorem forall₂_congr_left {other : List α} (hlength : left.length = other.length)
    (h : ∀ pair ∈ left.zip other, ∀ b, R pair.1 b ↔ R pair.2 b) :
    List.Forall₂ R left right ↔ List.Forall₂ R other right := by
  induction left generalizing other right with
  | nil =>
      rw [List.eq_nil_of_length_eq_zero hlength.symm]
  | cons a left ih =>
      cases other with
      | nil => cases hlength
      | cons b other =>
          obtain ⟨hhead, hrest⟩ := List.forall_mem_cons.mp h
          simp only [List.forall₂_cons_left_iff, hhead, ih (Nat.succ.inj hlength) hrest]

theorem exists_of_forall₂_of_mem {a : α} (hmatch : List.Forall₂ R left right) (ha : a ∈ left) :
    ∃ b, R a b := by
  induction hmatch with
  | nil => cases ha
  | cons hhead _ ih =>
      cases ha with
      | head => exact ⟨_, hhead⟩
      | tail _ hrest => exact ih hrest

theorem mapM_eq_some_iff {read : α → Option β} :
    left.mapM read = some right ↔ List.Forall₂ (fun a b => read a = some b) left right := by
  induction left generalizing right with
  | nil => simp [eq_comm]
  | cons a left ih =>
      rw [List.mapM_cons, List.forall₂_cons_left_iff]
      simp only [← ih]
      cases read a <;> cases left.mapM read <;> simp [eq_comm]

theorem mapM_congr {read : α → Option β} {other : List α} (hlength : left.length = other.length)
    (h : ∀ pair ∈ left.zip other, read pair.1 = read pair.2) :
    left.mapM read = other.mapM read := by
  apply Option.ext
  intro values
  rw [mapM_eq_some_iff, mapM_eq_some_iff]
  apply forall₂_congr_left hlength
  intro pair hpair value
  rw [h pair hpair]

theorem mapM_eq_none_of_mem {read : α → Option β} {a : α} (ha : a ∈ left) (h : read a = none) :
    left.mapM read = none := by
  apply Option.eq_none_iff_forall_ne_some.mpr
  intro values hvalues
  obtain ⟨value, hvalue⟩ := exists_of_forall₂_of_mem (mapM_eq_some_iff.mp hvalues) ha
  rw [h] at hvalue
  cases hvalue

end Matching

end CallForms

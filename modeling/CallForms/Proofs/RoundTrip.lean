import CallForms.Json.Canonical
import CallForms.Proofs.Readers

/-!
Writing and reading back.

A value that is the written one up to the order of its keys is canonical and stands for what was
written, and every canonical value is of that sort. So all that is written can be read back, and a
value comes back as it was exactly if it is canonical. What holds of items in this respect holds of
bodies of them.
-/

namespace CallForms

namespace Json

/-! ## Objects up to the order of their keys -/

mutual

theorem Same.refl : ∀ json : Json, Same json json
  | null => .null
  | bool value => .bool value
  | number mantissa exponent => .number mantissa exponent
  | string value => .string value
  | array items => .array (SameAll.refl items)
  | object members => .object (SameMembers.refl members) (.refl members)

theorem SameAll.refl : ∀ items : List Json, SameAll items items
  | [] => .nil
  | item :: rest => .cons (Same.refl item) (SameAll.refl rest)

theorem SameMembers.refl : ∀ members : List (String × Json), SameMembers members members
  | [] => .nil
  | (_, value) :: rest => .cons (Same.refl value) (SameMembers.refl rest)

end

theorem sameAll_iff {items others : List Json} :
    SameAll items others ↔ List.Forall₂ Same items others := by
  constructor
  · intro h
    induction items generalizing others with
    | nil =>
        cases h
        exact .nil
    | cons item rest ih =>
        cases h with
        | cons hitem hrest => exact .cons hitem (ih hrest)
  · intro h
    induction h with
    | nil => exact .nil
    | cons hitem _ ih => exact .cons hitem ih

section Objects

variable {fields written : List (String × Json)} {json : Json}

theorem IsObject.same (h : json.IsObject fields) (hfields : SameMembers written fields) :
    Same (object written) json := by
  obtain ⟨hperm⟩ := h
  exact .object hfields hperm.symm

theorem IsObject.isRecord {all : List (String × Json)} (h : json.IsObject all)
    (hfields : fields ⊆ all) : json.IsRecord fields := by
  obtain ⟨hperm⟩ := h
  exact .object fun field hfield => hperm.mem_iff.mpr (hfields hfield)

theorem IsObject.isTagged {tag : Json} (h : json.IsObject (("type", tag) :: fields)) :
    IsTagged tag fields json := by
  obtain ⟨hperm⟩ := h
  exact .object (hperm.mem_iff.mpr List.mem_cons_self) fun field hfield =>
    hperm.mem_iff.mpr (List.mem_cons_of_mem _ hfield)

theorem IsObject.uniqueKeys (h : json.IsObject fields) (hkeys : (fields.map Prod.fst).Nodup)
    (hfields : ∀ field ∈ fields, field.2.UniqueKeys) : json.UniqueKeys := by
  obtain ⟨hperm⟩ := h
  refine .object ((hperm.map Prod.fst).nodup_iff.mpr hkeys) ?_
  intro member hmember
  exact hfields member (hperm.mem_iff.mp hmember)

theorem Same.exists_of_object (h : Same (Json.object written) json) :
    ∃ fields, SameMembers written fields ∧ json.IsObject fields := by
  cases h with
  | object hmembers hperm => exact ⟨_, hmembers, ⟨hperm.symm⟩⟩

theorem SameMembers.exists_of_string {key value : String}
    (h : SameMembers ((key, Json.string value) :: written) fields) :
    ∃ rest, SameMembers written rest ∧ fields = (key, Json.string value) :: rest := by
  cases h with
  | cons hvalue hrest =>
      cases hvalue
      exact ⟨_, hrest, rfl⟩

theorem SameMembers.exists_of_array {key : String} {items : List Json}
    (h : SameMembers ((key, Json.array items) :: written) fields) :
    ∃ others rest, SameAll items others ∧ SameMembers written rest ∧
      fields = (key, Json.array others) :: rest := by
  cases h with
  | cons hvalue hrest =>
      cases hvalue with
      | array hitems => exact ⟨_, _, hitems, hrest, rfl⟩

theorem SameMembers.eq_nil (h : SameMembers [] fields) : fields = [] := by
  cases h
  rfl

/-- What is the same as a tagged record is an object with its tag and the same fields. -/
theorem Same.exists_of_tagged {tag : String} (h : Same (tagged tag written) json) :
    ∃ fields, SameMembers written fields ∧ json.IsObject (("type", Json.string tag) :: fields) := by
  obtain ⟨all, hall, hobject⟩ := h.exists_of_object
  obtain ⟨fields, hfields, rfl⟩ := hall.exists_of_string
  exact ⟨fields, hfields, hobject⟩

theorem Same.isObject_of_tagged {tag key value : String}
    (h : Same (tagged tag [(key, Json.string value)]) json) :
    json.IsObject [("type", Json.string tag), (key, Json.string value)] := by
  obtain ⟨fields, hfields, hobject⟩ := h.exists_of_tagged
  obtain ⟨rest, hrest, rfl⟩ := hfields.exists_of_string
  obtain rfl := hrest.eq_nil
  exact hobject

end Objects

section Items

variable {α : Type} {write : α → Json} {items : List Json}

theorem SameAll.forall₂_of_map {R : Json → α → Prop} {values : List α}
    (h : ∀ x ∈ values, ∀ {json : Json}, (write x).Same json → R json x)
    (hsame : SameAll (values.map write) items) : List.Forall₂ R items values := by
  rw [sameAll_iff, List.forall₂_map_left_iff] at hsame
  exact (forall₂_imp_of_mem (fun x hx _ _ hitem => h x hx hitem) hsame).flip

theorem exists_sameAll_map (h : ∀ item ∈ items, ∃ x, (write x).Same item) :
    ∃ values : List α, SameAll (values.map write) items := by
  induction items with
  | nil => exact ⟨[], .nil⟩
  | cons item rest ih =>
      obtain ⟨⟨x, hx⟩, hrest⟩ := List.forall_mem_cons.mp h
      obtain ⟨values, hvalues⟩ := ih hrest
      exact ⟨x :: values, .cons hx hvalues⟩

end Items

end Json

/-! ## Tokens -/

namespace Token

theorem Canonical.uniqueKeys {json : Json} (h : Canonical json) : json.UniqueKeys := by
  obtain ⟨kind, value, hobject⟩ := h
  exact hobject.uniqueKeys (by simp) (by simp)

theorem written_of_same {t : Token} {json : Json} (h : t.toJson.Same json) :
    Canonical json ∧ Represents json t := by
  have hobject := h.isObject_of_tagged
  exact ⟨⟨t.kind, t.value, hobject⟩, _, .label t.kind, hobject.isRecord (List.Subset.refl _)⟩

theorem Canonical.exists_same {json : Json} (h : Canonical json) :
    ∃ t : Token, t.toJson.Same json := by
  obtain ⟨kind, value, hobject⟩ := h
  exact ⟨⟨kind, value⟩, hobject.same (.refl _)⟩

end Token

/-! ## Forms -/

namespace Form

theorem toJsonAll_eq_map (forms : List Form) : toJsonAll forms = forms.map toJson := by
  induction forms with
  | nil => rfl
  | cons form rest ih => simp [toJsonAll, ih]

theorem Canonical.uniqueKeys {json : Json} (h : Canonical json) : json.UniqueKeys := by
  induction h with
  | number h => exact h.uniqueKeys (by simp) (by simp)
  | string h => exact h.uniqueKeys (by simp) (by simp)
  | call h _ ih => exact h.uniqueKeys (by simp) (by simpa using ih)

/-- The value is canonical and stands for the form, wherever it is read. -/
def Written (json : Json) (form : Form) : Prop :=
  Canonical json ∧ ∀ inside tagging, Represents inside tagging json form

theorem written_of_same (form : Form) :
    ∀ {json : Json}, form.toJson.Same json → form.Written json := by
  induction form with
  | number value =>
      intro json h
      have hobject := h.isObject_of_tagged
      exact ⟨.number hobject, fun _ _ => .number .name hobject.isTagged⟩
  | string value =>
      intro json h
      have hobject := h.isObject_of_tagged
      exact ⟨.string hobject, fun _ _ => .string .name hobject.isTagged⟩
  | call name params ih =>
      intro json h
      obtain ⟨fields, hfields, hobject⟩ := h.exists_of_tagged
      obtain ⟨rest, hrest, rfl⟩ := hfields.exists_of_string
      obtain ⟨items, last, hitems, hlast, rfl⟩ := hrest.exists_of_array
      obtain rfl := hlast.eq_nil
      rw [toJsonAll_eq_map] at hitems
      obtain ⟨hcanonical, hparams⟩ := (List.forall₂_and_left _ _).mp (hitems.forall₂_of_map ih)
      exact ⟨.call hobject hcanonical, fun inside _ => .call .name hobject.isTagged
        (hparams.imp fun _ _ hparam => hparam inside inside)⟩

theorem Canonical.exists_same {json : Json} (h : Canonical json) :
    ∃ form : Form, form.toJson.Same json := by
  induction h with
  | @number json value h => exact ⟨.number value, h.same (.refl _)⟩
  | @string json value h => exact ⟨.string value, h.same (.refl _)⟩
  | @call json name items h _ ih =>
      obtain ⟨params, hparams⟩ := Json.exists_sameAll_map ih
      rw [← toJsonAll_eq_map] at hparams
      exact ⟨.call name params,
        h.same (.cons (.refl _) (.cons (.refl _) (.cons (.array hparams) .nil)))⟩

end Form

/-! ## Code -/

namespace Code

theorem toJsonAll_eq_map (codes : List Code) : toJsonAll codes = codes.map toJson := by
  induction codes with
  | nil => rfl
  | cons code rest ih => simp [toJsonAll, ih]

theorem Canonical.uniqueKeys {json : Json} (h : Canonical json) : json.UniqueKeys := by
  induction h with
  | statement h _ ih => exact h.uniqueKeys (by simp) (by simp [ih])
  | call h hcallee _ ih =>
      have hrecord := hcallee.uniqueKeys (by simp) (by simp)
      exact h.uniqueKeys (by simp) (by simpa [hrecord] using ih)
  | identifier h => exact h.uniqueKeys (by simp) (by simp)
  | number h => exact h.uniqueKeys (by simp) (by simp)
  | string h => exact h.uniqueKeys (by simp) (by simp)

/-- The value is canonical and stands for the code, wherever it is read. -/
def Written (json : Json) (code : Code) : Prop :=
  Canonical json ∧ ∀ inside tagging, Represents inside tagging json code

theorem written_of_same (code : Code) :
    ∀ {json : Json}, code.toJson.Same json → code.Written json := by
  induction code with
  | statement expression ih =>
      intro json h
      obtain ⟨fields, hfields, hobject⟩ := h.exists_of_tagged
      cases hfields with
      | cons hinner hrest =>
          obtain rfl := hrest.eq_nil
          obtain ⟨hcanonical, hexpression⟩ := ih hinner
          exact ⟨.statement hobject hcanonical,
            fun inside _ => .statement .name hobject.isTagged (hexpression inside inside)⟩
  | call callee arguments ih =>
      intro json h
      obtain ⟨fields, hfields, hobject⟩ := h.exists_of_tagged
      cases hfields with
      | cons hrecord hrest =>
          obtain ⟨items, last, hitems, hlast, rfl⟩ := hrest.exists_of_array
          obtain rfl := hlast.eq_nil
          rw [toJsonAll_eq_map] at hitems
          obtain ⟨hcanonical, harguments⟩ :=
            (List.forall₂_and_left _ _).mp (hitems.forall₂_of_map ih)
          obtain ⟨names, hnames, hcallee⟩ := hrecord.exists_of_object
          obtain ⟨rest, hrest, rfl⟩ := hnames.exists_of_string
          obtain rfl := hrest.eq_nil
          exact ⟨.call hobject hcallee hcanonical, fun inside _ =>
            .call .name hobject.isTagged (hcallee.isRecord (List.Subset.refl _))
              (harguments.imp fun _ _ hargument => hargument inside inside)⟩
  | identifier name =>
      intro json h
      have hobject := h.isObject_of_tagged
      exact ⟨.identifier hobject, fun _ _ => .identifier .name hobject.isTagged⟩
  | number value =>
      intro json h
      have hobject := h.isObject_of_tagged
      exact ⟨.number hobject, fun _ _ => .number .name hobject.isTagged⟩
  | string value =>
      intro json h
      have hobject := h.isObject_of_tagged
      exact ⟨.string hobject, fun _ _ => .string .name hobject.isTagged⟩

theorem Canonical.exists_same {json : Json} (h : Canonical json) :
    ∃ code : Code, code.toJson.Same json := by
  induction h with
  | @statement json inner h _ ih =>
      obtain ⟨expression, hexpression⟩ := ih
      exact ⟨.statement expression, h.same (.cons (.refl _) (.cons hexpression .nil))⟩
  | @call json record callee items h hcallee _ ih =>
      obtain ⟨arguments, harguments⟩ := Json.exists_sameAll_map ih
      rw [← toJsonAll_eq_map] at harguments
      exact ⟨.call callee arguments,
        h.same (.cons (.refl _) (.cons (hcallee.same (.refl _)) (.cons (.array harguments) .nil)))⟩
  | @identifier json name h => exact ⟨.identifier name, h.same (.refl _)⟩
  | @number json value h => exact ⟨.number value, h.same (.refl _)⟩
  | @string json value h => exact ⟨.string value, h.same (.refl _)⟩

end Code

/-! ## There and back -/

/-- Reading undoes writing, so that writing what was read changes nothing for another reading, and a
value comes back up to the order of its keys exactly if it is canonical. -/
structure Json.RoundTrips {α : Type} (write : α → Json) (read : Json → Option α)
    (canonical : Json → Prop) : Prop where
  read_write : ∀ x, read (write x) = some x
  read_write_read : ∀ json, (read json).bind (fun x => read (write x)) = read json
  canonical_iff : ∀ json, canonical json ↔ ∃ x, read json = some x ∧ (write x).Same json

/-- What is written is canonical in any order of its keys and is read back, and nothing else is
canonical. -/
structure Json.ReadsBack {α : Type} (write : α → Json) (read : Json → Option α)
    (canonical : Json → Prop) : Prop where
  uniqueKeys : ∀ {json}, canonical json → json.UniqueKeys
  canonical_of_same : ∀ {x json}, (write x).Same json → canonical json
  read_of_same : ∀ {x json}, (write x).Same json → read json = some x
  exists_same : ∀ {json}, canonical json → ∃ x, (write x).Same json

namespace Json.ReadsBack

variable {α : Type} {write : α → Json} {read : Json → Option α} {canonical : Json → Prop}

theorem roundTrips (h : ReadsBack write read canonical) : RoundTrips write read canonical where
  read_write _ := h.read_of_same (.refl _)
  read_write_read json := by
    cases read json with
    | none => rfl
    | some x => exact h.read_of_same (.refl _)
  canonical_iff json := by
    constructor
    · intro hjson
      obtain ⟨x, hx⟩ := h.exists_same hjson
      exact ⟨x, h.read_of_same hx, hx⟩
    · rintro ⟨x, -, hx⟩
      exact h.canonical_of_same hx

/-- What is the same as a written body is one, with items that are canonical and read back. -/
theorem body_of_same (h : ReadsBack write read canonical) {body : List α} {json : Json}
    (hsame : (ofBody write body).Same json) :
    ∃ items, json.IsObject [("type", .string "Program"), ("body", .array items)] ∧
      (∀ item ∈ items, canonical item) ∧ items.mapM read = some body := by
  obtain ⟨fields, hfields, hobject⟩ := hsame.exists_of_tagged
  obtain ⟨items, last, hitems, hlast, rfl⟩ := hfields.exists_of_array
  obtain rfl := hlast.eq_nil
  have hread : List.Forall₂ (fun item x => canonical item ∧ read item = some x) items body :=
    hitems.forall₂_of_map fun _ _ _ hitem => ⟨h.canonical_of_same hitem, h.read_of_same hitem⟩
  obtain ⟨hcanonical, hbody⟩ := (List.forall₂_and_left _ _).mp hread
  exact ⟨items, hobject, hcanonical, mapM_eq_some_iff.mpr hbody⟩

theorem uniqueKeys_body (h : ReadsBack write read canonical) {json : Json}
    (hjson : json.CanonicalBody canonical) : json.UniqueKeys := by
  obtain ⟨items, hobject, hitems⟩ := hjson
  have hbody : ∀ item ∈ items, item.UniqueKeys := fun item hitem => h.uniqueKeys (hitems item hitem)
  exact hobject.uniqueKeys (by simp) (by simpa using hbody)

theorem body (h : ReadsBack write read canonical) :
    ReadsBack (ofBody write) (body? read) (CanonicalBody canonical) where
  uniqueKeys := h.uniqueKeys_body
  canonical_of_same hsame := by
    obtain ⟨items, hobject, hcanonical, -⟩ := h.body_of_same hsame
    exact ⟨items, hobject, hcanonical⟩
  read_of_same hsame := by
    obtain ⟨items, hobject, hcanonical, hread⟩ := h.body_of_same hsame
    have hjson := h.uniqueKeys_body ⟨items, hobject, hcanonical⟩
    exact (body?_eq_some_iff hjson).mpr ⟨items, hobject.isRecord (List.subset_cons_self _ _), hread⟩
  exists_same hjson := by
    obtain ⟨items, hobject, hitems⟩ := hjson
    obtain ⟨values, hvalues⟩ :=
      exists_sameAll_map fun item hitem => h.exists_same (hitems item hitem)
    exact ⟨values, hobject.same (.cons (.refl _) (.cons (.array hvalues) .nil))⟩

/-- A record around what is read changes nothing. -/
theorem wrapped {β : Type} (h : ReadsBack write read canonical) {wrap : α → β} {unwrap : β → α}
    (hwrap : ∀ y, wrap (unwrap y) = y) (hunwrap : ∀ x, unwrap (wrap x) = x) :
    ReadsBack (fun y => write (unwrap y)) (fun json => (read json).map wrap) canonical where
  uniqueKeys := h.uniqueKeys
  canonical_of_same := h.canonical_of_same
  read_of_same {y _} hsame := by
    rw [h.read_of_same hsame, Option.map_some, hwrap y]
  exists_same hjson := by
    obtain ⟨x, hx⟩ := h.exists_same hjson
    rw [← hunwrap x] at hx
    exact ⟨wrap x, hx⟩

end Json.ReadsBack

theorem Token.readsBack : Json.ReadsBack Token.toJson Token.ofJson? Token.Canonical where
  uniqueKeys := Token.Canonical.uniqueKeys
  canonical_of_same h := (Token.written_of_same h).1
  read_of_same h := by
    obtain ⟨hcanonical, hrepresents⟩ := Token.written_of_same h
    exact (Token.ofJson?_iff_represents hcanonical.uniqueKeys _).mpr hrepresents
  exists_same := Token.Canonical.exists_same

theorem Form.readsBack : Json.ReadsBack Form.toJson Form.ofJson? Form.Canonical where
  uniqueKeys := Form.Canonical.uniqueKeys
  canonical_of_same h := (Form.written_of_same _ h).1
  read_of_same h := by
    obtain ⟨hcanonical, hrepresents⟩ := Form.written_of_same _ h
    exact (Form.ofJsonTagged?_iff_represents _ hcanonical.uniqueKeys).mpr (hrepresents _ _)
  exists_same := Form.Canonical.exists_same

theorem Code.readsBack : Json.ReadsBack Code.toJson Code.ofJson? Code.Canonical where
  uniqueKeys := Code.Canonical.uniqueKeys
  canonical_of_same h := (Code.written_of_same _ h).1
  read_of_same h := by
    obtain ⟨hcanonical, hrepresents⟩ := Code.written_of_same _ h
    exact (Code.ofJsonTagged?_iff_represents _ hcanonical.uniqueKeys).mpr (hrepresents _ _)
  exists_same := Code.Canonical.exists_same

theorem Program.readsBack :
    Json.ReadsBack Program.toJson Program.ofJson? Program.Canonical :=
  Form.readsBack.body.wrapped (fun _ => rfl) (fun _ => rfl)

theorem Listing.readsBack :
    Json.ReadsBack Listing.toJson Listing.ofJson? Listing.Canonical :=
  Code.readsBack.body.wrapped (fun _ => rfl) (fun _ => rfl)

/-- Reading undoes writing for tokens, for forms and programs, and for code and listings, at any
depth and with any payloads. What was read is read again from what is written for it, and a value is
written back as it was, up to the order of its keys, exactly if it is canonical: an object of the
tag and the fields and of nothing else, and so are the records in it. -/
theorem reading_undoes_writing :
    Json.RoundTrips Token.toJson Token.ofJson? Token.Canonical ∧
      Json.RoundTrips Form.toJson Form.ofJson? Form.Canonical ∧
      Json.RoundTrips Program.toJson Program.ofJson? Program.Canonical ∧
      Json.RoundTrips Code.toJson Code.ofJson? Code.Canonical ∧
      Json.RoundTrips Listing.toJson Listing.ofJson? Listing.Canonical :=
  ⟨Token.readsBack.roundTrips, Form.readsBack.roundTrips, Program.readsBack.roundTrips,
    Code.readsBack.roundTrips, Listing.readsBack.roundTrips⟩

end CallForms

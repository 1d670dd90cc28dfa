import CallForms.Proofs.Records

/-!
What the readers of JSON values accept.

A reader looks at the tag of a value and at the fields of the kind that the tag is of. Read off
level by level, the values that it accepts as a form or as code are those that stand for it. Lists
and bodies are read alike whatever their items are.
-/

namespace CallForms

namespace Json

/-- A reader of tagged records, with what it asks of a value that it takes for a thing: a tag of the
kind of the thing, and fields that hold the thing. -/
structure TaggedReader (α κ : Type) where
  kinds : List κ
  label : κ → String
  kind : α → κ
  read : Tagging → Json → Option α
  FieldsRead : Json → α → Prop
  nodup_labels : (kinds.map label).Nodup
  read_eq_some_iff : ∀ {tagging : Tagging} {json : Json} {x : α}, read tagging json = some x ↔
    json.tag?.bind (kindOfTag? kinds label tagging) = some (kind x) ∧ FieldsRead json x

/-- A thing with one field. -/
theorem TaggedReader.read_eq_some_iff_of_field {α κ : Type} (r : TaggedReader α κ) {x : α}
    {place : Nat} (hplace : r.kinds[place]? = some (r.kind x)) {json : Json}
    (hjson : json.UniqueKeys) (tagging : Tagging) {name : String} {value : Json}
    (hfield : r.FieldsRead json x ↔ json.taggedFields? [name] = some [value]) :
    r.read tagging json = some x ↔
      ∃ tag, tag.IsTag (r.label (r.kind x)) place tagging ∧ IsTagged tag [(name, value)] json := by
  rw [r.read_eq_some_iff, hfield]
  exact kind_and_field_iff r.nodup_labels hplace hjson tagging name value

section Items

variable {α : Type} {read : Json → Option α} {represents : Json → α → Prop}

theorem UniqueKeys.mapM_eq_some_iff {items : List Json} {values : List α}
    (hitems : (Json.array items).UniqueKeys)
    (h : ∀ x ∈ values, ∀ {item : Json}, item.UniqueKeys →
      (read item = some x ↔ represents item x)) :
    items.mapM read = some values ↔ List.Forall₂ represents items values := by
  rw [CallForms.mapM_eq_some_iff]
  apply forall₂_congr_of_mem
  intro item hitem x hx
  exact h x hx (hitems.of_mem_array hitem)

theorem body?_eq_some_iff {json : Json} (hjson : json.UniqueKeys) {body : List α} :
    json.body? read = some body ↔
      ∃ items, json.IsRecord [("body", array items)] ∧ items.mapM read = some body := by
  have hfields : ∀ items, json.fields? ["body"] = some [array items] ↔
      json.IsRecord [("body", array items)] := by
    intro items
    rw [fields?_eq_some_iff hjson]
    simp
  simp only [← hfields]
  constructor
  · intro h
    unfold body? at h
    split at h
    · next items hfound => exact ⟨items, hfound, h⟩
    · cases h
  · rintro ⟨items, hfound, hread⟩
    rw [body?, hfound]
    exact hread

theorem body?_iff_represents {json : Json} (hjson : json.UniqueKeys)
    (h : ∀ x, ∀ {item : Json}, item.UniqueKeys → (read item = some x ↔ represents item x))
    (body : List α) : json.body? read = some body ↔ json.RepresentsBody represents body := by
  rw [body?_eq_some_iff hjson, RepresentsBody]
  refine exists_congr fun items => and_congr_right fun hrecord => ?_
  have hitems : (array items).UniqueKeys := hjson.of_isRecord hrecord (List.mem_singleton_self _)
  exact hitems.mapM_eq_some_iff fun x _ => h x

end Items

end Json

namespace Form

theorem ofJsonAll?_eq_mapM (tagging : Json.Tagging) (items : List Json) :
    ofJsonAll? tagging items = items.mapM (ofJsonTagged? tagging) := by
  induction items with
  | nil => simp [ofJsonAll?]
  | cons json rest ih =>
      rw [ofJsonAll?, ih, List.mapM_cons]
      cases ofJsonTagged? tagging json <;> cases rest.mapM (ofJsonTagged? tagging) <;> rfl

/-- What is found in the fields of a record that is read as the form. -/
def FieldsRead (json : Json) : Form → Prop
  | number value | string value => json.taggedFields? ["value"] = some [.string value]
  | call name params => ∃ items,
      json.taggedFields? ["name", "params"] = some [.string name, .array items] ∧
        items.mapM (ofJsonTagged? .numbered) = some params

theorem ofJsonTagged?_eq_some_iff {tagging : Json.Tagging} {json : Json} {form : Form} :
    ofJsonTagged? tagging json = some form ↔
      json.tag?.bind (Json.kindOfTag? kinds NodeKind.label tagging) = some form.kind ∧
        form.FieldsRead json := by
  constructor
  · intro h
    rw [ofJsonTagged?] at h
    split at h
    · next hkind =>
      split at h
      · next hfields =>
        cases h
        exact ⟨hkind, hfields⟩
      · cases h
    · next hkind =>
      split at h
      · next hfields =>
        cases h
        exact ⟨hkind, hfields⟩
      · cases h
    · next hkind =>
      split at h
      · next hfields =>
        obtain ⟨params, hparams, rfl⟩ := Option.map_eq_some_iff.mp h
        exact ⟨hkind, _, hfields, (ofJsonAll?_eq_mapM _ _).symm.trans hparams⟩
      · cases h
    · cases h
    · cases h
  · rintro ⟨hkind, hfields⟩
    rw [ofJsonTagged?, hkind]
    cases form with
    | number value =>
        rw [FieldsRead] at hfields
        simp only [kind, hfields]
    | string value =>
        rw [FieldsRead] at hfields
        simp only [kind, hfields]
    | call name params =>
        obtain ⟨items, hfields, hparams⟩ := hfields
        simp only [kind]
        -- The match keeps its equation for the recursion, so the fields cannot be rewritten in it.
        split
        · next hfound =>
          obtain ⟨⟨⟩, ⟨⟩, -⟩ := hfields.symm.trans hfound
          simp [ofJsonAll?_eq_mapM, hparams]
        · next hfound => exact absurd hfields (hfound name items)

def reader : Json.TaggedReader Form NodeKind where
  kinds := kinds
  label := NodeKind.label
  kind := kind
  read := ofJsonTagged?
  FieldsRead := FieldsRead
  nodup_labels := by decide
  read_eq_some_iff := ofJsonTagged?_eq_some_iff

theorem ofJsonTagged?_iff_represents (form : Form) :
    ∀ {tagging : Json.Tagging} {json : Json}, json.UniqueKeys →
      (ofJsonTagged? tagging json = some form ↔ Represents .numbered tagging json form) := by
  induction form with
  | number value =>
      intro tagging json hjson
      apply (reader.read_eq_some_iff_of_field (rfl : kinds[1]? = some .number) hjson tagging
        Iff.rfl).trans
      constructor
      · rintro ⟨tag, htag, hrecord⟩
        exact .number htag hrecord
      · intro h
        cases h with
        | number htag hrecord => exact ⟨_, htag, hrecord⟩
  | string value =>
      intro tagging json hjson
      apply (reader.read_eq_some_iff_of_field (rfl : kinds[2]? = some .string) hjson tagging
        Iff.rfl).trans
      constructor
      · rintro ⟨tag, htag, hrecord⟩
        exact .string htag hrecord
      · intro h
        cases h with
        | string htag hrecord => exact ⟨_, htag, hrecord⟩
  | call name params ih =>
      intro tagging json hjson
      have hfields := fun items => Json.kind_and_fields_iff reader.nodup_labels
        (rfl : kinds[0]? = some .call) hjson tagging ["name", "params"] [.string name, .array items]
      have hparams : ∀ {tag : Json} {items : List Json},
          Json.IsTagged tag [("name", .string name), ("params", .array items)] json →
          (items.mapM (ofJsonTagged? .numbered) = some params ↔
            List.Forall₂ (Represents .numbered .numbered) items params) := by
        intro tag items hrecord
        have hitems : (Json.array items).UniqueKeys :=
          hjson.of_isTagged hrecord (List.mem_cons_of_mem _ (List.mem_singleton_self _))
        exact hitems.mapM_eq_some_iff fun param hparam => ih param hparam
      rw [ofJsonTagged?_eq_some_iff]
      constructor
      · rintro ⟨hkind, items, hfound, hread⟩
        obtain ⟨-, tag, htag, hrecord⟩ := (hfields items).mp ⟨hkind, hfound⟩
        exact .call htag hrecord ((hparams hrecord).mp hread)
      · intro h
        cases h with
        | call htag hrecord hread =>
            obtain ⟨hkind, hfound⟩ := (hfields _).mpr ⟨rfl, _, htag, hrecord⟩
            exact ⟨hkind, _, hfound, (hparams hrecord).mpr hread⟩

end Form

namespace Code

theorem ofJsonAll?_eq_mapM (tagging : Json.Tagging) (items : List Json) :
    ofJsonAll? tagging items = items.mapM (ofJsonTagged? tagging) := by
  induction items with
  | nil => simp [ofJsonAll?]
  | cons json rest ih =>
      rw [ofJsonAll?, ih, List.mapM_cons]
      cases ofJsonTagged? tagging json <;> cases rest.mapM (ofJsonTagged? tagging) <;> rfl

theorem calleeOfJson?_eq_some_iff {json : Json} (hjson : json.UniqueKeys) {callee : String} :
    calleeOfJson? json = some callee ↔ json.IsRecord [("name", .string callee)] := by
  have hfields : json.fields? ["name"] = some [.string callee] ↔
      json.IsRecord [("name", .string callee)] := by
    rw [Json.fields?_eq_some_iff hjson]
    simp
  rw [← hfields, calleeOfJson?]
  split
  · next name hname => simp [hname]
  · next hname => simpa using hname callee

/-- What is found in the fields of a record that is read as the code. -/
def FieldsRead (json : Json) : Code → Prop
  | statement expression => ∃ inner,
      json.taggedFields? ["expression"] = some [inner] ∧
        ofJsonTagged? .numbered inner = some expression
  | call callee arguments => ∃ record items,
      json.taggedFields? ["callee", "arguments"] = some [record, .array items] ∧
        calleeOfJson? record = some callee ∧
          items.mapM (ofJsonTagged? .numbered) = some arguments
  | identifier name => json.taggedFields? ["name"] = some [.string name]
  | number value | string value => json.taggedFields? ["value"] = some [.string value]

theorem ofJsonTagged?_eq_some_iff {tagging : Json.Tagging} {json : Json} {code : Code} :
    ofJsonTagged? tagging json = some code ↔
      json.tag?.bind (Json.kindOfTag? kinds CodeKind.label tagging) = some code.kind ∧
        code.FieldsRead json := by
  constructor
  · intro h
    rw [ofJsonTagged?] at h
    split at h
    · next hkind =>
      split at h
      · next hfields =>
        obtain ⟨expression, hexpression, rfl⟩ := Option.map_eq_some_iff.mp h
        exact ⟨hkind, _, hfields, hexpression⟩
      · cases h
    · next hkind =>
      split at h
      · next hfields =>
        split at h
        · next hcallee harguments =>
          cases h
          rw [ofJsonAll?_eq_mapM] at harguments
          exact ⟨hkind, _, _, hfields, hcallee, harguments⟩
        · cases h
      · cases h
    · next hkind =>
      split at h
      · next hfields =>
        cases h
        exact ⟨hkind, hfields⟩
      · cases h
    · next hkind =>
      split at h
      · next hfields =>
        cases h
        exact ⟨hkind, hfields⟩
      · cases h
    · next hkind =>
      split at h
      · next hfields =>
        cases h
        exact ⟨hkind, hfields⟩
      · cases h
    · cases h
  · rintro ⟨hkind, hfields⟩
    rw [ofJsonTagged?, hkind]
    cases code with
    | statement expression =>
        obtain ⟨inner, hfields, hexpression⟩ := hfields
        simp only [kind]
        split
        · next hfound =>
          obtain ⟨⟨⟩, -⟩ := hfields.symm.trans hfound
          simp [hexpression]
        · next hfound => exact absurd hfields (hfound inner)
    | call callee arguments =>
        obtain ⟨record, items, hfields, hcallee, harguments⟩ := hfields
        simp only [kind]
        split
        · next hfound =>
          obtain ⟨⟨⟩, ⟨⟩, -⟩ := hfields.symm.trans hfound
          simp [hcallee, ofJsonAll?_eq_mapM, harguments]
        · next hfound => exact absurd hfields (hfound record items)
    | identifier name =>
        rw [FieldsRead] at hfields
        simp only [kind, hfields]
    | number value =>
        rw [FieldsRead] at hfields
        simp only [kind, hfields]
    | string value =>
        rw [FieldsRead] at hfields
        simp only [kind, hfields]

def reader : Json.TaggedReader Code CodeKind where
  kinds := kinds
  label := CodeKind.label
  kind := kind
  read := ofJsonTagged?
  FieldsRead := FieldsRead
  nodup_labels := by decide
  read_eq_some_iff := ofJsonTagged?_eq_some_iff

theorem ofJsonTagged?_iff_represents (code : Code) :
    ∀ {tagging : Json.Tagging} {json : Json}, json.UniqueKeys →
      (ofJsonTagged? tagging json = some code ↔ Represents .numbered tagging json code) := by
  induction code with
  | statement expression ih =>
      intro tagging json hjson
      have hfield := fun inner => Json.kind_and_field_iff reader.nodup_labels
        (rfl : kinds[0]? = some .statement) hjson tagging "expression" inner
      have hinner : ∀ {tag inner : Json}, Json.IsTagged tag [("expression", inner)] json →
          inner.UniqueKeys := fun hrecord => hjson.of_isTagged hrecord (List.mem_singleton_self _)
      rw [ofJsonTagged?_eq_some_iff]
      constructor
      · rintro ⟨hkind, inner, hfound, hread⟩
        obtain ⟨tag, htag, hrecord⟩ := (hfield inner).mp ⟨hkind, hfound⟩
        exact .statement htag hrecord ((ih (hinner hrecord)).mp hread)
      · intro h
        cases h with
        | statement htag hrecord hread =>
            obtain ⟨hkind, hfound⟩ := (hfield _).mpr ⟨_, htag, hrecord⟩
            exact ⟨hkind, _, hfound, (ih (hinner hrecord)).mpr hread⟩
  | call callee arguments ih =>
      intro tagging json hjson
      have hfields := fun record items => Json.kind_and_fields_iff reader.nodup_labels
        (rfl : kinds[1]? = some .call) hjson tagging ["callee", "arguments"] [record, .array items]
      have hcallee : ∀ {tag record : Json} {items : List Json},
          Json.IsTagged tag [("callee", record), ("arguments", .array items)] json →
          (calleeOfJson? record = some callee ↔ record.IsRecord [("name", .string callee)]) :=
        fun hrecord => calleeOfJson?_eq_some_iff (hjson.of_isTagged hrecord List.mem_cons_self)
      have harguments : ∀ {tag record : Json} {items : List Json},
          Json.IsTagged tag [("callee", record), ("arguments", .array items)] json →
          (items.mapM (ofJsonTagged? .numbered) = some arguments ↔
            List.Forall₂ (Represents .numbered .numbered) items arguments) := by
        intro tag record items hrecord
        have hitems : (Json.array items).UniqueKeys :=
          hjson.of_isTagged hrecord (List.mem_cons_of_mem _ (List.mem_singleton_self _))
        exact hitems.mapM_eq_some_iff fun argument hargument => ih argument hargument
      rw [ofJsonTagged?_eq_some_iff]
      constructor
      · rintro ⟨hkind, record, items, hfound, hname, hread⟩
        obtain ⟨-, tag, htag, hrecord⟩ := (hfields record items).mp ⟨hkind, hfound⟩
        exact .call htag hrecord ((hcallee hrecord).mp hname) ((harguments hrecord).mp hread)
      · intro h
        cases h with
        | call htag hrecord hname hread =>
            obtain ⟨hkind, hfound⟩ := (hfields _ _).mpr ⟨rfl, _, htag, hrecord⟩
            exact ⟨hkind, _, _, hfound, (hcallee hrecord).mpr hname,
              (harguments hrecord).mpr hread⟩
  | identifier name =>
      intro tagging json hjson
      apply (reader.read_eq_some_iff_of_field (rfl : kinds[2]? = some .identifier) hjson tagging
        Iff.rfl).trans
      constructor
      · rintro ⟨tag, htag, hrecord⟩
        exact .identifier htag hrecord
      · intro h
        cases h with
        | identifier htag hrecord => exact ⟨_, htag, hrecord⟩
  | number value =>
      intro tagging json hjson
      apply (reader.read_eq_some_iff_of_field (rfl : kinds[3]? = some .number) hjson tagging
        Iff.rfl).trans
      constructor
      · rintro ⟨tag, htag, hrecord⟩
        exact .number htag hrecord
      · intro h
        cases h with
        | number htag hrecord => exact ⟨_, htag, hrecord⟩
  | string value =>
      intro tagging json hjson
      apply (reader.read_eq_some_iff_of_field (rfl : kinds[4]? = some .string) hjson tagging
        Iff.rfl).trans
      constructor
      · rintro ⟨tag, htag, hrecord⟩
        exact .string htag hrecord
      · intro h
        cases h with
        | string htag hrecord => exact ⟨_, htag, hrecord⟩

end Code

namespace TokenKind

theorem ofLabel?_eq_some_iff {label : String} {kind : TokenKind} :
    ofLabel? label = some kind ↔ label = kind.label := by
  constructor
  · intro h
    unfold ofLabel? at h
    split at h <;> cases h <;> rfl
  · rintro rfl
    cases kind <;> rfl

theorem ofJson?_eq_some_iff {json : Json} {kind : TokenKind} :
    ofJson? json = some kind ↔ Represents json kind := by
  constructor
  · intro h
    unfold ofJson? at h
    split at h
    · rw [ofLabel?_eq_some_iff.mp h]
      exact .label kind
    · rw [ofLabel?_eq_some_iff.mp h]
      exact .object kind
    · cases h
  · rintro (_ | _)
    · exact ofLabel?_eq_some_iff.mpr rfl
    · exact ofLabel?_eq_some_iff.mpr rfl

end TokenKind

theorem Token.ofJson?_iff_represents {json : Json} (hjson : json.UniqueKeys) (t : Token) :
    Token.ofJson? json = some t ↔ Token.Represents json t := by
  have hfields : ∀ kind, json.fields? ["type", "value"] = some [kind, .string t.value] ↔
      json.IsRecord [("type", kind), ("value", .string t.value)] := by
    intro kind
    rw [Json.fields?_eq_some_iff hjson]
    simp
  constructor
  · intro h
    unfold Token.ofJson? at h
    split at h
    · next kind value hfound =>
      obtain ⟨tokenKind, hkind, rfl⟩ := Option.map_eq_some_iff.mp h
      exact ⟨kind, TokenKind.ofJson?_eq_some_iff.mp hkind, (hfields kind).mp hfound⟩
    · cases h
  · rintro ⟨kind, hkind, hrecord⟩
    rw [Token.ofJson?, (hfields kind).mpr hrecord]
    simp [TokenKind.ofJson?_eq_some_iff.mpr hkind]

namespace Program

theorem ofJson?_eq_some_iff {json : Json} {p : Program} :
    ofJson? json = some p ↔ json.body? Form.ofJson? = some p.body := by
  cases p
  simp [ofJson?]

theorem ofJson?_iff_represents {json : Json} (hjson : json.UniqueKeys) (p : Program) :
    ofJson? json = some p ↔ Represents .numbered json p := by
  rw [ofJson?_eq_some_iff]
  exact Json.body?_iff_represents hjson (fun form => form.ofJsonTagged?_iff_represents) p.body

end Program

namespace Listing

theorem ofJson?_eq_some_iff {json : Json} {listing : Listing} :
    ofJson? json = some listing ↔ json.body? Code.ofJson? = some listing.body := by
  cases listing
  simp [ofJson?]

theorem ofJson?_iff_represents {json : Json} (hjson : json.UniqueKeys) (listing : Listing) :
    ofJson? json = some listing ↔ Represents .numbered json listing := by
  rw [ofJson?_eq_some_iff]
  exact Json.body?_iff_represents hjson (fun code => code.ofJsonTagged?_iff_represents) listing.body

end Listing

end CallForms

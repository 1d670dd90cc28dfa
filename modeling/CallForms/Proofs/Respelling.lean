import CallForms.Json.Respelling
import CallForms.Proofs.Readers

/-!
Reading depends on what a value says, not on how it is spelled.

A reader sees a value only through its tag and through the fields of the kind that the tag is of.
Two spellings agree on both, up to spellings of the values in the fields, so they are read alike;
and a field that cannot be read leaves nothing to read around it.
-/

namespace CallForms

namespace Json

section Rearranged

variable {keys : List String} {json other : Json}

theorem lookupAll_congr {members others : List (String × Json)} {names : List String}
    (h : ∀ name ∈ names, members.lookup name = others.lookup name) :
    lookupAll members names = lookupAll others names := by
  induction names with
  | nil => rfl
  | cons name names ih =>
      obtain ⟨hname, hnames⟩ := List.forall_mem_cons.mp h
      rw [lookupAll, lookupAll, hname, ih hnames]

theorem Rearranged.exists_lookup_eq (h : Rearranged keys json other) (hjson : json.UniqueKeys)
    (hother : other.UniqueKeys) :
    ∃ members others, json = Json.object members ∧ other = Json.object others ∧
      ∀ key ∈ keys, members.lookup key = others.lookup key := by
  obtain ⟨hkeys⟩ := h
  cases hjson with
  | object hmembers _ =>
      cases hother with
      | object hothers _ =>
          refine ⟨_, _, rfl, rfl, ?_⟩
          intro key hkey
          apply Option.ext
          intro value
          rw [lookup_eq_some_iff hmembers, lookup_eq_some_iff hothers]
          exact hkeys key hkey value

theorem Rearranged.tag?_eq (h : Rearranged keys json other) (hjson : json.UniqueKeys)
    (hother : other.UniqueKeys) (htype : "type" ∈ keys) : json.tag? = other.tag? := by
  obtain ⟨members, others, rfl, rfl, hlookup⟩ := h.exists_lookup_eq hjson hother
  exact hlookup "type" htype

theorem Rearranged.taggedFields?_eq (h : Rearranged keys json other) (hjson : json.UniqueKeys)
    (hother : other.UniqueKeys) (names : List String) (hnames : names ⊆ keys) :
    json.taggedFields? names = other.taggedFields? names := by
  obtain ⟨members, others, rfl, rfl, hlookup⟩ := h.exists_lookup_eq hjson hother
  apply lookupAll_congr
  intro name hname
  exact hlookup name (hnames hname)

/-- An object without a tag is asked for its keys alone. -/
theorem Rearranged.fields?_eq (h : Rearranged keys json other) (hjson : json.UniqueKeys)
    (hother : other.UniqueKeys) : json.fields? keys = other.fields? keys := by
  obtain ⟨members, others, rfl, rfl, hlookup⟩ := h.exists_lookup_eq hjson hother
  exact lookupAll_congr hlookup

end Rearranged

section Found

variable {json tag : Json} {fields : List (String × Json)}

theorem UniqueKeys.found (hjson : json.UniqueKeys) (h : IsTagged tag fields json) :
    json.tag? = some tag ∧
      json.taggedFields? (fields.map Prod.fst) = some (fields.map Prod.snd) := by
  apply (taggedFields?_eq_some_iff hjson).mpr
  rw [← List.zip_of_prod rfl rfl, List.length_map, List.length_map]
  exact ⟨rfl, h⟩

theorem UniqueKeys.found_field (hjson : json.UniqueKeys) {name : String} {value : Json}
    (h : IsTagged tag [(name, value)] json) :
    json.tag? = some tag ∧ json.taggedFields? [name] = some [value] ∧ value.UniqueKeys := by
  obtain ⟨htag, hfields⟩ := hjson.found h
  exact ⟨htag, hfields, hjson.of_isTagged h (List.mem_singleton_self _)⟩

theorem UniqueKeys.found_fields (hjson : json.UniqueKeys) {name second : String}
    {value content : Json} (h : IsTagged tag [(name, value), (second, content)] json) :
    json.tag? = some tag ∧ json.taggedFields? [name, second] = some [value, content] ∧
      value.UniqueKeys ∧ content.UniqueKeys := by
  obtain ⟨htag, hfields⟩ := hjson.found h
  exact ⟨htag, hfields, hjson.of_isTagged h List.mem_cons_self,
    hjson.of_isTagged h (List.mem_cons_of_mem _ (List.mem_singleton_self _))⟩

theorem UniqueKeys.found_record (hjson : json.UniqueKeys) {name : String} {value : Json}
    (h : json.IsRecord [(name, value)]) : json.fields? [name] = some [value] :=
  (fields?_eq_some_iff hjson).mpr ⟨rfl, h⟩

end Found

/-- A tag of a kind is read as that kind, or not understood. -/
theorem IsTag.kind_eq {κ : Type} {kinds : List κ} {label : κ → String}
    (hlabels : (kinds.map label).Nodup) {place : Nat} {kind : κ}
    (hplace : kinds[place]? = some kind) {tag : Json}
    (htag : tag.IsTag (label kind) place .numbered) {tagging : Tagging} {other : κ}
    (h : kindOfTag? kinds label tagging tag = some other) : other = kind := by
  have hkind : kindOfTag? kinds label .numbered tag = some kind :=
    (kindOfTag?_eq_some_iff hlabels hplace).mpr htag
  cases htag with
  | name => exact Option.some.inj (h.symm.trans hkind)
  -- A number may be refused where only names are understood, but it is never another kind.
  | place =>
      cases tagging with
      | named => cases h
      | numbered => exact Option.some.inj (h.symm.trans hkind)

namespace TaggedReader

variable {α κ : Type} (r : TaggedReader α κ) {tagging : Tagging} {json other tag : Json}

/-- A reader sees only the tag and the fields of the kind that it is of. -/
theorem read_congr (htag : json.tag? = other.tag?)
    (hfields : ∀ x, r.FieldsRead json x ↔ r.FieldsRead other x) :
    r.read tagging json = r.read tagging other := by
  apply Option.ext
  intro x
  rw [r.read_eq_some_iff, r.read_eq_some_iff, ← htag, hfields]

variable {kind : κ} {place : Nat} (hplace : r.kinds[place]? = some kind)
  (hkind : tag.IsTag (r.label kind) place .numbered)

include hplace hkind

theorem read_congr_of_isTag (htag : json.tag? = some tag) (hother : other.tag? = some tag)
    (hfields : ∀ x, r.kind x = kind → (r.FieldsRead json x ↔ r.FieldsRead other x)) :
    r.read tagging json = r.read tagging other := by
  apply Option.ext
  intro x
  rw [r.read_eq_some_iff, r.read_eq_some_iff, htag, hother]
  refine and_congr_right fun hx => ?_
  exact hfields x (hkind.kind_eq r.nodup_labels hplace hx)

/-- Two records of one kind with the same fields are read alike. -/
theorem read_eq_of_isTagged {fields : List (String × Json)} (hjson : json.UniqueKeys)
    (hother : other.UniqueKeys) (hrecord : IsTagged tag fields json)
    (hrespelled : IsTagged tag fields other)
    (hfields : ∀ x, r.kind x = kind →
      json.taggedFields? (fields.map Prod.fst) = other.taggedFields? (fields.map Prod.fst) →
      (r.FieldsRead json x ↔ r.FieldsRead other x)) :
    r.read tagging json = r.read tagging other := by
  obtain ⟨hfound, hvalues⟩ := hjson.found hrecord
  obtain ⟨hfound', hvalues'⟩ := hother.found hrespelled
  apply r.read_congr_of_isTag hplace hkind hfound hfound'
  intro x hx
  exact hfields x hx (hvalues.trans hvalues'.symm)

theorem read_eq_none_of_isTag (htag : json.tag? = some tag)
    (hfields : ∀ x, r.kind x = kind → ¬ r.FieldsRead json x) : r.read tagging json = none := by
  apply Option.eq_none_iff_forall_ne_some.mpr
  intro x hx
  obtain ⟨hfound, hread⟩ := r.read_eq_some_iff.mp hx
  rw [htag] at hfound
  exact hfields x (hkind.kind_eq r.nodup_labels hplace hfound) hread

end TaggedReader

section Items

variable {α : Type} {read : Json → Option α} {json other : Json}

theorem UniqueKeys.mapM_congr {items others : List Json} (hitems : (Json.array items).UniqueKeys)
    (hothers : (Json.array others).UniqueKeys) (hlength : items.length = others.length)
    (h : ∀ pair ∈ items.zip others, pair.1.UniqueKeys → pair.2.UniqueKeys →
      read pair.1 = read pair.2) : items.mapM read = others.mapM read := by
  apply CallForms.mapM_congr hlength
  intro pair hpair
  obtain ⟨hitem, hother⟩ := List.of_mem_zip hpair
  exact h pair hpair (hitems.of_mem_array hitem) (hothers.of_mem_array hother)

theorem body?_eq_of_respelled {respelled : Json → Json → Prop}
    (hread : ∀ {item other : Json}, respelled item other → item.UniqueKeys → other.UniqueKeys →
      read item = read other)
    (h : json.RespelledBody respelled other) (hjson : json.UniqueKeys)
    (hother : other.UniqueKeys) : json.body? read = other.body? read := by
  cases h with
  | keys hkeys => rw [body?, body?, hkeys.fields?_eq hjson hother]
  | record hrecord hrespelled =>
      rw [body?, body?, hjson.found_record hrecord, hother.found_record hrespelled]
  | body hrecord hrespelled hlength hitems =>
      rw [body?, body?, hjson.found_record hrecord, hother.found_record hrespelled]
      exact (hjson.of_isRecord hrecord (List.mem_singleton_self _)).mapM_congr
        (hother.of_isRecord hrespelled (List.mem_singleton_self _)) hlength
        fun pair hpair => hread (hitems pair hpair)

theorem body?_eq_none_of_spoiled {spoiled : Json → Prop}
    (hread : ∀ {item : Json}, spoiled item → item.UniqueKeys → read item = none)
    (h : json.SpoiledBody spoiled) (hjson : json.UniqueKeys) : json.body? read = none := by
  obtain ⟨items, hrecord, item, hitem, hspoiled⟩ := h
  have hitems := hjson.of_isRecord hrecord (List.mem_singleton_self _)
  rw [body?, hjson.found_record hrecord]
  exact mapM_eq_none_of_mem hitem (hread hspoiled (hitems.of_mem_array hitem))

end Items

end Json

namespace Form

variable {tagging : Json.Tagging} {json other : Json}

theorem ofJsonTagged?_eq_of_respelled (h : Respelled json other) : json.UniqueKeys →
    other.UniqueKeys → ∀ tagging, ofJsonTagged? tagging json = ofJsonTagged? tagging other := by
  induction h with
  | same =>
      intro _ _ tagging
      rfl
  | keys hkeys =>
      intro hjson hother tagging
      have hvalue := hkeys.taggedFields?_eq hjson hother ["value"] (by simp)
      have hparams := hkeys.taggedFields?_eq hjson hother ["name", "params"] (by simp)
      apply reader.read_congr (hkeys.tag?_eq hjson hother (by simp))
      intro form
      cases form <;> simp only [reader, FieldsRead, hvalue, hparams]
  | number htag hrecord hrespelled =>
      intro hjson hother tagging
      apply reader.read_eq_of_isTagged (rfl : kinds[1]? = some .number) htag hjson hother
        hrecord hrespelled
      intro form hkind hfields
      cases form with
      | number => exact Eq.congr_left hfields
      | string | call => cases hkind
  | string htag hrecord hrespelled =>
      intro hjson hother tagging
      apply reader.read_eq_of_isTagged (rfl : kinds[2]? = some .string) htag hjson hother
        hrecord hrespelled
      intro form hkind hfields
      cases form with
      | string => exact Eq.congr_left hfields
      | number | call => cases hkind
  | call htag hrecord hrespelled =>
      intro hjson hother tagging
      apply reader.read_eq_of_isTagged (rfl : kinds[0]? = some .call) htag hjson hother
        hrecord hrespelled
      intro form hkind hfields
      cases form with
      | call => exact exists_congr fun items => and_congr_left' (Eq.congr_left hfields)
      | number | string => cases hkind
  | params htag hrecord hrespelled hlength _ ih =>
      intro hjson hother tagging
      obtain ⟨hfound, hfields, -, hitems⟩ := hjson.found_fields hrecord
      obtain ⟨hfound', hfields', -, hothers⟩ := hother.found_fields hrespelled
      have hread := hitems.mapM_congr hothers hlength fun pair hpair hitem hother =>
        ih pair hpair hitem hother .numbered
      apply reader.read_congr_of_isTag (rfl : kinds[0]? = some .call) htag hfound hfound'
      intro form hkind
      cases form with
      | call => simp [reader, FieldsRead, hfields, hfields', hread]
      | number | string => cases hkind

theorem ofJsonTagged?_eq_none_of_spoiled (h : Spoiled tagging json) :
    json.UniqueKeys → ofJsonTagged? tagging json = none := by
  induction h with
  | here hnone =>
      intro hjson
      apply Option.eq_none_iff_forall_ne_some.mpr
      intro form hform
      exact hnone form ((form.ofJsonTagged?_iff_represents hjson).mp hform)
  | param htag hrecord hitem _ ih =>
      intro hjson
      obtain ⟨hfound, hfields, -, hitems⟩ := hjson.found_fields hrecord
      have hnone := mapM_eq_none_of_mem hitem (ih (hitems.of_mem_array hitem))
      apply reader.read_eq_none_of_isTag (rfl : kinds[0]? = some .call) htag hfound
      intro form hkind
      cases form with
      | call => simp [reader, FieldsRead, hfields, hnone]
      | number | string => cases hkind

end Form

namespace Code

variable {tagging : Json.Tagging} {json other : Json}

theorem calleeOfJson?_eq_of_respelled (h : RespelledCallee json other) (hjson : json.UniqueKeys)
    (hother : other.UniqueKeys) : calleeOfJson? json = calleeOfJson? other := by
  cases h with
  | same => rfl
  | keys hkeys => rw [calleeOfJson?, calleeOfJson?, hkeys.fields?_eq hjson hother]
  | record hrecord hrespelled =>
      rw [calleeOfJson?, calleeOfJson?, hjson.found_record hrecord,
        hother.found_record hrespelled]

theorem ofJsonTagged?_eq_of_respelled (h : Respelled json other) : json.UniqueKeys →
    other.UniqueKeys → ∀ tagging, ofJsonTagged? tagging json = ofJsonTagged? tagging other := by
  induction h with
  | same =>
      intro _ _ tagging
      rfl
  | keys hkeys =>
      intro hjson hother tagging
      have hexpression := hkeys.taggedFields?_eq hjson hother ["expression"] (by simp)
      have harguments := hkeys.taggedFields?_eq hjson hother ["callee", "arguments"] (by simp)
      have hname := hkeys.taggedFields?_eq hjson hother ["name"] (by simp)
      have hvalue := hkeys.taggedFields?_eq hjson hother ["value"] (by simp)
      apply reader.read_congr (hkeys.tag?_eq hjson hother (by simp))
      intro code
      cases code <;> simp only [reader, FieldsRead, hexpression, harguments, hname, hvalue]
  | statement htag hrecord hrespelled _ ih =>
      intro hjson hother tagging
      obtain ⟨hfound, hfields, hinner⟩ := hjson.found_field hrecord
      obtain ⟨hfound', hfields', hinner'⟩ := hother.found_field hrespelled
      have hread := ih hinner hinner' .numbered
      apply reader.read_congr_of_isTag (rfl : kinds[0]? = some .statement) htag hfound hfound'
      intro code hkind
      cases code with
      | statement => simp [reader, FieldsRead, hfields, hfields', hread]
      | call | identifier | number | string => cases hkind
  | call htag hrecord hrespelled hcallee =>
      intro hjson hother tagging
      obtain ⟨hfound, hfields, hkeys, -⟩ := hjson.found_fields hrecord
      obtain ⟨hfound', hfields', hkeys', -⟩ := hother.found_fields hrespelled
      have hname := calleeOfJson?_eq_of_respelled hcallee hkeys hkeys'
      apply reader.read_congr_of_isTag (rfl : kinds[1]? = some .call) htag hfound hfound'
      intro code hkind
      cases code with
      | call => simp [reader, FieldsRead, hfields, hfields', hname]
      | statement | identifier | number | string => cases hkind
  | arguments htag hrecord hrespelled hcallee hlength _ ih =>
      intro hjson hother tagging
      obtain ⟨hfound, hfields, hkeys, hitems⟩ := hjson.found_fields hrecord
      obtain ⟨hfound', hfields', hkeys', hothers⟩ := hother.found_fields hrespelled
      have hname := calleeOfJson?_eq_of_respelled hcallee hkeys hkeys'
      have hread := hitems.mapM_congr hothers hlength fun pair hpair hitem hother =>
        ih pair hpair hitem hother .numbered
      apply reader.read_congr_of_isTag (rfl : kinds[1]? = some .call) htag hfound hfound'
      intro code hkind
      cases code with
      | call => simp [reader, FieldsRead, hfields, hfields', hname, hread]
      | statement | identifier | number | string => cases hkind
  | identifier htag hrecord hrespelled =>
      intro hjson hother tagging
      apply reader.read_eq_of_isTagged (rfl : kinds[2]? = some .identifier) htag hjson hother
        hrecord hrespelled
      intro code hkind hfields
      cases code with
      | identifier => exact Eq.congr_left hfields
      | statement | call | number | string => cases hkind
  | number htag hrecord hrespelled =>
      intro hjson hother tagging
      apply reader.read_eq_of_isTagged (rfl : kinds[3]? = some .number) htag hjson hother
        hrecord hrespelled
      intro code hkind hfields
      cases code with
      | number => exact Eq.congr_left hfields
      | statement | call | identifier | string => cases hkind
  | string htag hrecord hrespelled =>
      intro hjson hother tagging
      apply reader.read_eq_of_isTagged (rfl : kinds[4]? = some .string) htag hjson hother
        hrecord hrespelled
      intro code hkind hfields
      cases code with
      | string => exact Eq.congr_left hfields
      | statement | call | identifier | number => cases hkind

theorem ofJsonTagged?_eq_none_of_spoiled (h : Spoiled tagging json) :
    json.UniqueKeys → ofJsonTagged? tagging json = none := by
  induction h with
  | here hnone =>
      intro hjson
      apply Option.eq_none_iff_forall_ne_some.mpr
      intro code hcode
      exact hnone code ((code.ofJsonTagged?_iff_represents hjson).mp hcode)
  | expression htag hrecord _ ih =>
      intro hjson
      obtain ⟨hfound, hfields, hinner⟩ := hjson.found_field hrecord
      have hnone := ih hinner
      apply reader.read_eq_none_of_isTag (rfl : kinds[0]? = some .statement) htag hfound
      intro code hkind
      cases code with
      | statement => simp [reader, FieldsRead, hfields, hnone]
      | call | identifier | number | string => cases hkind
  | argument htag hrecord hitem _ ih =>
      intro hjson
      obtain ⟨hfound, hfields, -, hitems⟩ := hjson.found_fields hrecord
      have hnone := mapM_eq_none_of_mem hitem (ih (hitems.of_mem_array hitem))
      apply reader.read_eq_none_of_isTag (rfl : kinds[1]? = some .call) htag hfound
      intro code hkind
      cases code with
      | call => simp [reader, FieldsRead, hfields, hnone]
      | statement | identifier | number | string => cases hkind

end Code

section Whole

variable {json other : Json}

theorem Token.ofJson?_eq_of_respelled (h : Token.Respelled json other) (hjson : json.UniqueKeys)
    (hother : other.UniqueKeys) : Token.ofJson? json = Token.ofJson? other := by
  cases h with
  | keys hkeys => rw [Token.ofJson?, Token.ofJson?, hkeys.fields?_eq hjson hother]
  | @record kind value hrecord hrespelled =>
      have hfields : json.fields? ["type", "value"] = some [kind, value] :=
        (Json.fields?_eq_some_iff hjson).mpr ⟨rfl, hrecord⟩
      have hfields' : other.fields? ["type", "value"] = some [kind, value] :=
        (Json.fields?_eq_some_iff hother).mpr ⟨rfl, hrespelled⟩
      rw [Token.ofJson?, Token.ofJson?, hfields, hfields']

theorem Program.ofJson?_eq_of_respelled (h : Program.Respelled json other)
    (hjson : json.UniqueKeys) (hother : other.UniqueKeys) :
    Program.ofJson? json = Program.ofJson? other := by
  have hread : ∀ {item other : Json}, Form.Respelled item other → item.UniqueKeys →
      other.UniqueKeys → Form.ofJson? item = Form.ofJson? other :=
    fun h hitem hother => Form.ofJsonTagged?_eq_of_respelled h hitem hother .named
  rw [Program.ofJson?, Program.ofJson?, Json.body?_eq_of_respelled hread h hjson hother]

theorem Listing.ofJson?_eq_of_respelled (h : Listing.Respelled json other)
    (hjson : json.UniqueKeys) (hother : other.UniqueKeys) :
    Listing.ofJson? json = Listing.ofJson? other := by
  have hread : ∀ {item other : Json}, Code.Respelled item other → item.UniqueKeys →
      other.UniqueKeys → Code.ofJson? item = Code.ofJson? other :=
    fun h hitem hother => Code.ofJsonTagged?_eq_of_respelled h hitem hother .named
  rw [Listing.ofJson?, Listing.ofJson?, Json.body?_eq_of_respelled hread h hjson hother]

theorem Program.ofJson?_eq_none_of_spoiled (h : Program.Spoiled json) (hjson : json.UniqueKeys) :
    Program.ofJson? json = none := by
  have hnone : json.body? Form.ofJson? = none :=
    Json.body?_eq_none_of_spoiled Form.ofJsonTagged?_eq_none_of_spoiled h hjson
  rw [Program.ofJson?, hnone, Option.map_none]

theorem Listing.ofJson?_eq_none_of_spoiled (h : Listing.Spoiled json) (hjson : json.UniqueKeys) :
    Listing.ofJson? json = none := by
  have hnone : json.body? Code.ofJson? = none :=
    Json.body?_eq_none_of_spoiled Code.ofJsonTagged?_eq_none_of_spoiled h hjson
  rw [Listing.ofJson?, hnone, Option.map_none]

end Whole

/-- Each reader takes a value for what it stands for and for nothing else. It takes every spelling
of the value for the same, and it takes a value with a spoiled part for nothing. -/
theorem Json.read_iff_represents (json : Json) (hjson : json.UniqueKeys) :
    ((∀ t, Token.ofJson? json = some t ↔ Token.Represents json t) ∧
      (∀ form, Form.ofJson? json = some form ↔ Form.Represents .numbered .named json form) ∧
      (∀ p, Program.ofJson? json = some p ↔ Program.Represents .numbered json p) ∧
      (∀ code, Code.ofJson? json = some code ↔ Code.Represents .numbered .named json code) ∧
      ∀ listing, Listing.ofJson? json = some listing ↔
        Listing.Represents .numbered json listing) ∧
    (∀ other : Json, other.UniqueKeys →
      (Token.Respelled json other → Token.ofJson? json = Token.ofJson? other) ∧
      (Form.Respelled json other → Form.ofJson? json = Form.ofJson? other) ∧
      (Program.Respelled json other → Program.ofJson? json = Program.ofJson? other) ∧
      (Code.Respelled json other → Code.ofJson? json = Code.ofJson? other) ∧
      (Listing.Respelled json other → Listing.ofJson? json = Listing.ofJson? other)) ∧
    (Form.Spoiled .named json → Form.ofJson? json = none) ∧
    (Program.Spoiled json → Program.ofJson? json = none) ∧
    (Code.Spoiled .named json → Code.ofJson? json = none) ∧
    (Listing.Spoiled json → Listing.ofJson? json = none) := by
  refine ⟨⟨?_, ?_, ?_, ?_, ?_⟩, ?_, ?_, ?_, ?_, ?_⟩
  · exact Token.ofJson?_iff_represents hjson
  · intro form
    exact form.ofJsonTagged?_iff_represents hjson
  · exact Program.ofJson?_iff_represents hjson
  · intro code
    exact code.ofJsonTagged?_iff_represents hjson
  · exact Listing.ofJson?_iff_represents hjson
  · intro other hother
    refine ⟨?_, ?_, ?_, ?_, ?_⟩
    · intro h
      exact Token.ofJson?_eq_of_respelled h hjson hother
    · intro h
      exact Form.ofJsonTagged?_eq_of_respelled h hjson hother .named
    · intro h
      exact Program.ofJson?_eq_of_respelled h hjson hother
    · intro h
      exact Code.ofJsonTagged?_eq_of_respelled h hjson hother .named
    · intro h
      exact Listing.ofJson?_eq_of_respelled h hjson hother
  · intro h
    exact Form.ofJsonTagged?_eq_none_of_spoiled h hjson
  · intro h
    exact Program.ofJson?_eq_none_of_spoiled h hjson
  · intro h
    exact Code.ofJsonTagged?_eq_none_of_spoiled h hjson
  · intro h
    exact Listing.ofJson?_eq_none_of_spoiled h hjson

/-- A call as an object out of order with a stray key and a numbered parameter, and as an array. -/
theorem Json.read_iff_represents_call :
    let json := object [("params", array [array [number 1 0, string "5"]]), ("line", null),
      ("name", string "f"), ("type", string "CallExpression")]
    let other := array [string "CallExpression", string "f",
      array [object [("value", string "5"), ("type", number 1 0)]]]
    json.UniqueKeys ∧ other.UniqueKeys ∧ Form.Respelled json other ∧
      Form.ofJson? json = some (.call "f" [.number "5"]) ∧
      Form.ofJson? other = some (.call "f" [.number "5"]) := by
  intro json other
  have hjson : json.UniqueKeys := by simp [json]
  have hother : other.UniqueKeys := by simp [other]
  have hrespelled : Form.Respelled json other := by
    have hitems : IsTagged (string "CallExpression")
        [("name", string "f"), ("params", array [array [number 1 0, string "5"]])] json :=
      .object (by simp) (by simp)
    have hothers : IsTagged (string "CallExpression") [("name", string "f"),
        ("params", array [object [("value", string "5"), ("type", number 1 0)]])] other := .array
    have hparam : IsTagged (number 1 0) [("value", string "5")]
        (object [("value", string "5"), ("type", number 1 0)]) := .object (by simp) (by simp)
    apply Form.Respelled.params .name hitems hothers rfl
    intro pair hpair
    rw [List.mem_singleton.mp hpair]
    exact .number .place .array hparam
  obtain ⟨⟨-, hform, -⟩, hrespell, -⟩ := Json.read_iff_represents json hjson
  have hread : Form.ofJson? json = some (.call "f" [.number "5"]) := by
    apply (hform _).mpr
    exact .call .name (.object (by simp) (by simp)) (.cons (.number .place .array) .nil)
  have hsame := (hrespell other hother).2.1 hrespelled
  exact ⟨hjson, hother, hrespelled, hread, hsame.symm.trans hread⟩

/-- Inside a form, a tag need not be a name. -/
theorem Form.numbered_param_is_read :
    let json := Json.array [.string "CallExpression", .string "f",
      .array [.array [.number 1 0, .string "5"]]]
    json.UniqueKeys ∧ Form.ofJson? json = some (.call "f" [.number "5"]) ∧
      ¬ Form.Represents .named .named json (.call "f" [.number "5"]) := by
  intro json
  have hjson : json.UniqueKeys := by simp [json]
  refine ⟨hjson, ?_, ?_⟩
  · apply (Form.ofJsonTagged?_iff_represents _ hjson).mpr
    exact .call .name .array (.cons (.number .place .array) .nil)
  · intro h
    cases h with
    | call _ hrecord hparams =>
        dsimp only [json] at hrecord
        cases hrecord
        cases hparams with
        | cons hparam _ =>
            cases hparam with
            | number htag hrecord =>
                cases hrecord
                cases htag

end CallForms

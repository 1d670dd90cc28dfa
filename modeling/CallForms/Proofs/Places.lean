import CallForms.Form.Place

/-!
The tour of a program place by place.

A place is not above itself, and of the children of one place at most one is at or above another
place. So the stops below a place are those of the tour that have it above them, and the stops that
a chosen node opens a bucket for are among them.
-/

namespace CallForms

namespace Place

theorem length_above_lt {a b : Place} (h : a ∈ b.above) : a.above.length < b.above.length := by
  induction b with
  | program p => cases h
  | child parent index form ih =>
      rw [above, List.length_cons]
      cases h with
      | head => omega
      | tail _ h =>
          have := ih h
          omega

theorem mem_above_of_child_mem_above {parent place : Place} {index : Nat} {form : Form}
    (h : child parent index form ∈ place.above) : parent ∈ place.above := by
  induction place with
  | program p => cases h
  | child other otherIndex otherForm ih =>
      rw [above] at h ⊢
      cases h with
      | head => exact List.mem_cons_of_mem _ List.mem_cons_self
      | tail _ h => exact List.mem_cons_of_mem _ (ih h)

theorem child_notMem_line (parent : Place) (index : Nat) (form : Form) :
    child parent index form ∉ parent :: parent.above := by
  have hlength : (child parent index form).above.length = parent.above.length + 1 := rfl
  intro h
  rcases List.mem_cons.mp h with h | h
  · rw [h] at hlength
    omega
  · have := length_above_lt h
    omega

theorem notMem_above (place : Place) : place ∉ place.above := fun h =>
  absurd (length_above_lt h) (Nat.lt_irrefl _)

theorem mem_above_of_child_mem_line {parent place : Place} {index : Nat} {form : Form}
    (h : child parent index form ∈ place :: place.above) : parent ∈ place.above := by
  rcases List.mem_cons.mp h with rfl | h
  · exact List.mem_cons_self
  · exact mem_above_of_child_mem_above h

/-- Of the children of one place at most one is at or above a given place. -/
theorem child_inj_of_mem_line {parent place : Place} {i j : Nat} {f g : Form}
    (hf : child parent i f ∈ place :: place.above) (hg : child parent j g ∈ place :: place.above) :
    child parent i f = child parent j g := by
  induction place with
  | program p => simp [above] at hf
  | child other index form ih =>
      rw [above] at hf hg
      rcases List.mem_cons.mp hf with hf | hf
      · rcases List.mem_cons.mp hg with hg | hg
        · rw [hf, hg]
        · obtain rfl : parent = other := (child.inj hf).1
          exact absurd hg (child_notMem_line parent j g)
      · rcases List.mem_cons.mp hg with hg | hg
        · obtain rfl : parent = other := (child.inj hg).1
          exact absurd hf (child_notMem_line parent i f)
        · exact ih hf hg

/-- The nearest chosen node for what hangs from the place. -/
def scopeBelow (opens : Item → Bool) (place : Place) : Option Place :=
  if opens place.item then some place else place.opener? opens

section Opener

variable {opens : Item → Bool} {place other : Place}

theorem mem_above_of_opener? (h : place.opener? opens = some other) : other ∈ place.above :=
  List.mem_of_find?_eq_some h

theorem opener?_child (opens : Item → Bool) (parent : Place) (index : Nat) (form : Form) :
    (child parent index form).opener? opens = parent.scopeBelow opens := by
  cases hopens : opens parent.item <;> simp [opener?, scopeBelow, above, hopens]

/-- Below a chosen node the nearest chosen node is that one or one below it. -/
theorem exists_opener?_of_mem_above (hopens : opens other.item = true) (h : other ∈ place.above) :
    ∃ nearest, place.opener? opens = some nearest ∧ other ∈ nearest :: nearest.above := by
  induction place with
  | program p => cases h
  | child parent index form ih =>
      rw [opener?_child, scopeBelow]
      cases hparent : opens parent.item with
      | true => exact ⟨parent, rfl, h⟩
      | false =>
          rcases List.mem_cons.mp h with rfl | h
          · simp [hopens] at hparent
          · exact ih h

/-- What is below a chosen node is not in the scope of the node itself. -/
theorem opener?_ne_of_mem_above (hopens : opens other.item = true) (h : other ∈ place.above) :
    place.opener? opens ≠ other.opener? opens := by
  obtain ⟨nearest, hnearest, hother⟩ := exists_opener?_of_mem_above hopens h
  intro heq
  have hlt := length_above_lt (mem_above_of_opener? (heq ▸ hnearest))
  rcases List.mem_cons.mp hother with rfl | hother
  · omega
  · have := length_above_lt hother
    omega

end Opener

end Place

/-! ## The tour place by place -/

namespace Form

theorem placedStops_eq (parent : Place) (index : Nat) (form : Form) :
    form.placedStops parent index =
      ⟨.enter, .child parent index form⟩ ::
        ((Place.child parent index form).stopsBelow ++ [⟨.leave, .child parent index form⟩]) := by
  cases form <;> rfl

mutual

theorem map_stop_placedStops :
    ∀ (parent : Place) (index : Nat) (form : Form),
      (form.placedStops parent index).map PlacedStop.stop = form.stops parent.item
  | parent, index, .number value => rfl
  | parent, index, .string value => rfl
  | parent, index, .call name params => by
      have hparams := map_stop_placedStopsAll (.child parent index (.call name params)) 0 params
      simp only [placedStops, stops, List.map_cons, List.map_append, hparams]
      rfl

theorem map_stop_placedStopsAll :
    ∀ (parent : Place) (index : Nat) (forms : List Form),
      (placedStopsAll parent index forms).map PlacedStop.stop = stopsAll parent.item forms
  | parent, index, [] => rfl
  | parent, index, form :: rest => by
      rw [placedStopsAll, List.map_append, map_stop_placedStops, map_stop_placedStopsAll, stopsAll]

end

mutual

/-- The stops at a form are at its place or below it. -/
theorem mem_line_of_mem_placedStops :
    ∀ {form : Form} {parent : Place} {index : Nat} {s : PlacedStop},
      s ∈ form.placedStops parent index →
        Place.child parent index form ∈ s.place :: s.place.above
  | .number value, parent, index, s, h => by
      simp only [placedStops, List.mem_cons, List.not_mem_nil, or_false] at h
      rcases h with rfl | rfl <;> exact List.mem_cons_self
  | .string value, parent, index, s, h => by
      simp only [placedStops, List.mem_cons, List.not_mem_nil, or_false] at h
      rcases h with rfl | rfl <;> exact List.mem_cons_self
  | .call name params, parent, index, s, h => by
      simp only [placedStops, List.mem_cons, List.mem_append, List.not_mem_nil, or_false] at h
      rcases h with rfl | h | rfl
      · exact List.mem_cons_self
      · obtain ⟨k, form, -, hline⟩ := exists_child_of_mem_placedStopsAll h
        exact List.mem_cons_of_mem _ (Place.mem_above_of_child_mem_line hline)
      · exact List.mem_cons_self

theorem exists_child_of_mem_placedStopsAll :
    ∀ {forms : List Form} {parent : Place} {index : Nat} {s : PlacedStop},
      s ∈ placedStopsAll parent index forms →
        ∃ k form, index ≤ k ∧ Place.child parent k form ∈ s.place :: s.place.above
  | form :: rest, parent, index, s, h => by
      rcases List.mem_append.mp h with h | h
      · exact ⟨index, form, Nat.le_refl _, mem_line_of_mem_placedStops h⟩
      · obtain ⟨k, other, hk, hline⟩ := exists_child_of_mem_placedStopsAll h
        exact ⟨k, other, by omega, hline⟩

end

end Form

namespace Place

theorem mem_above_of_mem_stopsBelow {place : Place} {s : PlacedStop} (h : s ∈ place.stopsBelow) :
    place ∈ s.place.above := by
  obtain ⟨k, form, -, hline⟩ := Form.exists_child_of_mem_placedStopsAll h
  exact mem_above_of_child_mem_line hline

/-- Of the stops at a place and below it, those below it. -/
theorem filter_mem_above (place : Place) :
    (⟨.enter, place⟩ :: (place.stopsBelow ++ [⟨.leave, place⟩])).filter
      (fun s => place ∈ s.place.above) = place.stopsBelow := by
  have hbelow : place.stopsBelow.filter (fun s => place ∈ s.place.above) = place.stopsBelow :=
    List.filter_eq_self.mpr fun s hs => by simpa using mem_above_of_mem_stopsBelow hs
  simp [List.filter_append, hbelow, notMem_above]

end Place

/-- Of the stops at the forms that hang from one place, those below one of the forms. -/
theorem Form.filter_placedStopsAll {forms : List Form} {parent : Place} {index j : Nat}
    {form : Form} (h : forms[j]? = some form) :
    (placedStopsAll parent index forms).filter
      (fun s => Place.child parent (index + j) form ∈ s.place.above) =
        (Place.child parent (index + j) form).stopsBelow := by
  induction forms generalizing index j with
  | nil => cases h
  | cons first rest ih =>
      rw [placedStopsAll, List.filter_append]
      cases j with
      | zero =>
          -- Equal forms may follow; it is their index that keeps their stops out.
          obtain rfl : first = form := by simpa using h
          have hrest : (placedStopsAll parent (index + 1) rest).filter
              (fun s => Place.child parent index first ∈ s.place.above) = [] := by
            rw [List.filter_eq_nil_iff]
            intro s hs habove
            obtain ⟨k, other, hk, hline⟩ := exists_child_of_mem_placedStopsAll hs
            have habove := List.mem_cons_of_mem s.place (of_decide_eq_true habove)
            have := (Place.child.inj (Place.child_inj_of_mem_line habove hline)).2.1
            omega
          rw [Nat.add_zero, hrest, placedStops_eq, Place.filter_mem_above, List.append_nil]
      | succ j =>
          have hfirst : (first.placedStops parent index).filter
              (fun s => Place.child parent (index + (j + 1)) form ∈ s.place.above) = [] := by
            rw [List.filter_eq_nil_iff]
            intro s hs habove
            have hline := mem_line_of_mem_placedStops hs
            have habove := List.mem_cons_of_mem s.place (of_decide_eq_true habove)
            have := (Place.child.inj (Place.child_inj_of_mem_line habove hline)).2.1
            omega
          have hindex : index + (j + 1) = index + 1 + j := by omega
          rw [hfirst, List.nil_append, hindex]
          exact ih h

theorem Program.map_stop_placedTour (p : Program) :
    p.placedTour.map PlacedStop.stop = p.tour := by
  have hbody := Form.map_stop_placedStopsAll (.program p) 0 p.body
  rw [p.tour_eq_stops, placedTour, List.map_cons, List.map_append]
  simp only [Place.stopsBelow, Place.item, Item.children, hbody]
  rfl

/-! ## What a tour has below a place -/

namespace Place

/-- The tour has the stops below the place and has them in their order. -/
def CompleteIn (tour : List PlacedStop) (place : Place) : Prop :=
  tour.filter (fun s => place ∈ s.place.above) = place.stopsBelow

theorem completeIn_program (p : Program) : CompleteIn p.placedTour (.program p) :=
  filter_mem_above (.program p)

theorem CompleteIn.child {tour : List PlacedStop} {place : Place} (h : CompleteIn tour place)
    {index : Nat} {form : Form} (hform : place.item.children[index]? = some form) :
    CompleteIn tour (.child place index form) := by
  have hbelow : place.stopsBelow.filter (fun s => .child place (0 + index) form ∈ s.place.above) =
      (Place.child place (0 + index) form).stopsBelow := Form.filter_placedStopsAll hform
  rw [Nat.zero_add, ← h, List.filter_filter] at hbelow
  rw [CompleteIn, ← hbelow]
  apply List.filter_congr
  intro s _
  have hparent := @mem_above_of_child_mem_above place s.place index form
  by_cases hs : Place.child place index form ∈ s.place.above
  · simp [hs, hparent hs]
  · simp [hs]

/-- The stops that a place opens a bucket for are among those below it. -/
theorem CompleteIn.inScope_eq {tour : List PlacedStop} {place : Place} (h : CompleteIn tour place)
    (opens : Item → Bool) :
    PlacedStop.inScope opens (some place) tour =
      PlacedStop.inScope opens (some place) place.stopsBelow := by
  rw [← h, PlacedStop.inScope, PlacedStop.inScope, List.filter_filter]
  apply List.filter_congr
  intro s _
  by_cases hs : s.place.opener? opens = some place
  · simp [hs, mem_above_of_opener? hs]
  · simp [hs]

end Place

end CallForms

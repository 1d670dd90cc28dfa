import CallForms.Form.Descent

/-!
How a walk goes along the tour of a program.

A walk works the tour off stop by stop, which does the same as recursion on the forms: the nodes
around an error are neither left nor walked any further. The visitor may keep a state of its own,
write anything to the destinations and fail at any stop. Whatever it does, the stops it is called
at are a beginning of the tour, which ends at the first error or with the tour itself.
-/

namespace CallForms

namespace Form

mutual

theorem length_stops (parent : Item) :
    ∀ form : Form, (form.stops parent).length = 2 * form.count
  | .number value => by simp [stops, count]
  | .string value => by simp [stops, count]
  | .call name params => by
      have hparams := length_stopsAll (.form (.call name params)) params
      simp only [stops, count, List.length_cons, List.length_append, List.length_nil]
      omega

theorem length_stopsAll (parent : Item) :
    ∀ forms : List Form, (stopsAll parent forms).length = 2 * countAll forms
  | [] => rfl
  | form :: rest => by
      have hform := length_stops parent form
      have hrest := length_stopsAll parent rest
      simp only [stopsAll, countAll, List.length_append]
      omega

end

end Form

namespace Visitor

variable {σ δ : Type}

section Steps

variable {v : Visitor σ δ} {visit : Visit} {s next : σ} {d after inner : δ} {close : δ → δ}
  {e : WalkError} {stops : List Stop} {closers outer : List (δ → δ)}
  {earlier : List (Stop × Option WalkError)}

theorem follow_enter_opened (h : v.enter visit s d = (next, .opened inner close)) :
    v.follow (⟨.enter, visit⟩ :: stops) s d closers =
      v.follow stops next inner (close :: closers) := by
  rw [follow_enter, h]

theorem follow_enter_failed (h : v.enter visit s d = (next, .failed after e)) :
    v.follow (⟨.enter, visit⟩ :: stops) s d closers =
      ⟨next, closeAll closers after, some e⟩ := by
  rw [follow_enter, h]

theorem follow_leave_passed (hclose : closeInner closers d = (inner, outer))
    (h : v.leave visit s inner = (next, after, none)) :
    v.follow (⟨.leave, visit⟩ :: stops) s d closers = v.follow stops next after outer := by
  simp only [follow, hclose, h]

theorem follow_leave_failed (hclose : closeInner closers d = (inner, outer))
    (h : v.leave visit s inner = (next, after, some e)) :
    v.follow (⟨.leave, visit⟩ :: stops) s d closers = ⟨next, closeAll outer after, some e⟩ := by
  simp only [follow, hclose, h]

theorem logged_enter_opened (h : v.enter visit s d = (next, .opened inner close)) :
    v.logged.enter visit (s, earlier) d =
      ((next, earlier ++ [(⟨.enter, visit⟩, none)]), .opened inner close) := by
  simp [logged, h]

theorem logged_enter_failed (h : v.enter visit s d = (next, .failed after e)) :
    v.logged.enter visit (s, earlier) d =
      ((next, earlier ++ [(⟨.enter, visit⟩, some e)]), .failed after e) := by
  simp [logged, h]

theorem logged_leave {e? : Option WalkError} (h : v.leave visit s d = (next, after, e?)) :
    v.logged.leave visit (s, earlier) d =
      ((next, earlier ++ [(⟨.leave, visit⟩, e?)]), after, e?) := by
  simp [logged, h]

end Steps

/-- Goes on with further stops after a walk. Its error, if there is one, ends them. -/
def resume (v : Visitor σ δ) (stops : List Stop) (closers : List (δ → δ)) (w : Walked σ δ) :
    Walked σ δ :=
  match w.error? with
  | none => v.follow stops w.state w.dest closers
  | some e => ⟨w.state, closeAll closers w.dest, some e⟩

theorem resume_andThen (v : Visitor σ δ) {stops : List Stop} {closers : List (δ → δ)}
    {next : σ → δ → Walked σ δ} {further : List Stop}
    (hnext : ∀ s d, v.follow further s d closers = v.resume stops closers (next s d))
    (w : Walked σ δ) :
    v.resume further closers w = v.resume stops closers (w.andThen next) := by
  obtain ⟨s, d, e?⟩ := w
  cases e? with
  | none => exact hnext s d
  | some e => rfl

theorem follow_nothing (v : Visitor σ δ) (stops : List Stop) (s : σ) (d : δ)
    (closers : List (δ → δ)) :
    v.follow ([] ++ stops) s d closers = v.resume stops closers ⟨s, d, none⟩ := rfl

/-- Following the stops at a node is walking around its children, if following theirs is walking
them. -/
theorem follow_around (v : Visitor σ δ) (visit : Visit) {below : List Stop}
    {children : σ → δ → Walked σ δ}
    (hbelow : ∀ stops s d closers,
      v.follow (below ++ stops) s d closers = v.resume stops closers (children s d))
    (stops : List Stop) (s : σ) (d : δ) (closers : List (δ → δ)) :
    v.follow (⟨.enter, visit⟩ :: (below ++ ⟨.leave, visit⟩ :: stops)) s d closers =
      v.resume stops closers (v.around visit children s d) := by
  rw [around]
  rcases henter : v.enter visit s d with ⟨next, ⟨inner, close⟩ | ⟨after, e⟩⟩
  · rw [follow_enter_opened henter, hbelow]
    -- The node's own closer is the innermost one: leaving or failing below it puts `inner` back.
    rcases hchildren : children next inner with ⟨last, filled, _ | e⟩
    · have hclose : closeInner (close :: closers) filled = (close filled, closers) := rfl
      rcases hleave : v.leave visit last (close filled) with ⟨left, after, _ | e⟩
      · simp [resume, Walked.andThen, follow_leave_passed hclose hleave, hchildren, hleave]
      · simp [resume, Walked.andThen, follow_leave_failed hclose hleave, hchildren, hleave]
    · simp [resume, Walked.andThen, closeAll, hchildren]
  · rw [follow_enter_failed henter]
    simp [resume]

mutual

theorem follow_stops (v : Visitor σ δ) (parent : Item) :
    ∀ (form : Form) (stops : List Stop) (s : σ) (d : δ) (closers : List (δ → δ)),
      v.follow (form.stops parent ++ stops) s d closers =
        v.resume stops closers (v.descend ⟨.form form, some parent⟩ form s d)
  | .number value, stops, s, d, closers => v.follow_around _ v.follow_nothing stops s d closers
  | .string value, stops, s, d, closers => v.follow_around _ v.follow_nothing stops s d closers
  | .call name params, stops, s, d, closers => by
      have hparams := follow_stopsAll v (.form (.call name params)) params
      have haround := v.follow_around ⟨.form (.call name params), some parent⟩ hparams stops s d
      simpa [Form.stops, descend] using haround closers

theorem follow_stopsAll (v : Visitor σ δ) (parent : Item) :
    ∀ (forms : List Form) (stops : List Stop) (s : σ) (d : δ) (closers : List (δ → δ)),
      v.follow (Form.stopsAll parent forms ++ stops) s d closers =
        v.resume stops closers (v.descendAll parent forms s d)
  | [], stops, s, d, closers => rfl
  | form :: rest, stops, s, d, closers => by
      have hrest := fun s d => follow_stopsAll v parent rest stops s d closers
      rw [Form.stopsAll, List.append_assoc, follow_stops v parent form, descendAll_cons]
      exact v.resume_andThen hrest _

end

/-- Following the tour is walking by recursion. -/
theorem walk_eq_descendProgram (v : Visitor σ δ) (p : Program) (s : σ) (d : δ) :
    v.walk p s d = v.descendProgram p s d := by
  have hbody := v.follow_stopsAll (.program p) p.body
  rw [walk, p.tour_eq_stops, v.follow_around p.visit hbody, descendProgram]
  obtain ⟨s, d, e?⟩ := v.around p.visit (v.descendAll (.program p) p.body) s d
  cases e? <;> rfl

/-- What calls at some stops can come to: they are made in turn until one of them fails. -/
inductive Attends : List Stop → List (Stop × Option WalkError) → Option WalkError → Prop where
  | done : Attends [] [] none
  | failed (stop : Stop) (rest : List Stop) (e : WalkError) :
      Attends (stop :: rest) [(stop, some e)] (some e)
  | passed (stop : Stop) {rest : List Stop} {calls : List (Stop × Option WalkError)}
      {e? : Option WalkError} :
      Attends rest calls e? → Attends (stop :: rest) ((stop, none) :: calls) e?

namespace Attends

variable {stops : List Stop} {calls : List (Stop × Option WalkError)} {e? : Option WalkError}

theorem isPrefix (h : Attends stops calls e?) : calls.map Prod.fst <+: stops := by
  induction h with
  | done => exact List.prefix_refl _
  | failed stop rest e => exact List.cons_prefix_cons.mpr ⟨rfl, List.nil_prefix⟩
  | passed stop _ ih => exact List.cons_prefix_cons.mpr ⟨rfl, ih⟩

theorem eq_none_iff (h : Attends stops calls e?) :
    e? = none ↔ calls.map Prod.fst = stops ∧ ∀ call ∈ calls, call.2 = none := by
  induction h with
  | done => simp
  | failed stop rest e => simp
  | passed stop _ ih => simp [ih]

theorem eq_some_iff (h : Attends stops calls e?) (e : WalkError) :
    e? = some e ↔ ∃ before stop, calls = before ++ [(stop, some e)] ∧
      ∀ call ∈ before, call.2 = none := by
  induction h with
  | done => simp
  | failed stop rest found =>
      constructor
      · rintro ⟨⟩
        exact ⟨[], stop, rfl, by simp⟩
      · rintro ⟨before, last, hcalls, hbefore⟩
        cases before with
        | nil => simp_all
        | cons call before => simp at hcalls
  | @passed stop rest calls e? _ ih =>
      rw [ih]
      constructor
      · rintro ⟨before, last, rfl, hbefore⟩
        exact ⟨(stop, none) :: before, last, rfl, by simpa using hbefore⟩
      · rintro ⟨before, last, hcalls, hbefore⟩
        cases before with
        | nil => simp at hcalls
        | cons call before =>
            obtain ⟨-, rfl⟩ := List.cons.inj hcalls
            exact ⟨before, last, rfl, fun call hcall =>
              hbefore call (List.mem_cons_of_mem _ hcall)⟩

end Attends

/-- Keeping a list of the calls changes nothing else, and the calls are made in turn until one of
them fails. -/
theorem exists_follow_logged (v : Visitor σ δ) (stops : List Stop) :
    ∀ (s : σ) (d : δ) (closers : List (δ → δ)) (earlier : List (Stop × Option WalkError)),
      ∃ calls, v.logged.follow stops (s, earlier) d closers =
          ⟨((v.follow stops s d closers).state, earlier ++ calls),
            (v.follow stops s d closers).dest, (v.follow stops s d closers).error?⟩ ∧
        Attends stops calls (v.follow stops s d closers).error? := by
  induction stops with
  | nil =>
      intro s d closers earlier
      exact ⟨[], by simp [follow], .done⟩
  | cons stop rest ih =>
      intro s d closers earlier
      obtain ⟨phase, visit⟩ := stop
      cases phase with
      | enter =>
          rcases henter : v.enter visit s d with ⟨next, ⟨inner, close⟩ | ⟨after, e⟩⟩
          · obtain ⟨calls, hcalls, hattends⟩ :=
              ih next inner (close :: closers) (earlier ++ [(⟨.enter, visit⟩, none)])
            rw [follow_enter_opened henter, follow_enter_opened (logged_enter_opened henter)]
            exact ⟨_ :: calls, by simpa using hcalls, hattends.passed _⟩
          · rw [follow_enter_failed henter, follow_enter_failed (logged_enter_failed henter)]
            exact ⟨[(⟨.enter, visit⟩, some e)], rfl, .failed _ rest e⟩
      | leave =>
          obtain ⟨inner, outer, hclose⟩ : ∃ inner outer, closeInner closers d = (inner, outer) :=
            ⟨_, _, rfl⟩
          rcases hleave : v.leave visit s inner with ⟨next, after, _ | e⟩
          · obtain ⟨calls, hcalls, hattends⟩ :=
              ih next after outer (earlier ++ [(⟨.leave, visit⟩, none)])
            rw [follow_leave_passed hclose hleave, follow_leave_passed hclose (logged_leave hleave)]
            exact ⟨_ :: calls, by simpa using hcalls, hattends.passed _⟩
          · rw [follow_leave_failed hclose hleave, follow_leave_failed hclose (logged_leave hleave)]
            exact ⟨[(⟨.leave, visit⟩, some e)], rfl, .failed _ rest e⟩

/-- A walk goes along a beginning of the tour of the program, whatever the visitor does at the
stops. The tour enters the program, goes through its forms from left to right, each inside the stops
of the node it hangs from, and leaves the program: two stops for every node. The walk gives no error
if and only if the visitor was called at all of them and never failed. If it gives one, that is the
answer of the last call made, and the only error among the answers. -/
theorem walk_calls_along_tour (v : Visitor σ δ) (p : Program) (s : σ) (d : δ) :
    ∃ tour calls,
      tour = ⟨.enter, p.visit⟩ :: (Form.stopsAll (.program p) p.body ++ [⟨.leave, p.visit⟩]) ∧
      tour.length = 2 * (Item.program p).count ∧
      v.walk p s d = v.descendProgram p s d ∧
      v.logged.walk p (s, []) d =
        ⟨((v.walk p s d).state, calls), (v.walk p s d).dest, (v.walk p s d).error?⟩ ∧
      calls.map Prod.fst <+: tour ∧
      ((v.walk p s d).error? = none ↔
        calls.map Prod.fst = tour ∧ ∀ call ∈ calls, call.2 = none) ∧
      ∀ e, (v.walk p s d).error? = some e ↔
        ∃ before stop, calls = before ++ [(stop, some e)] ∧ ∀ call ∈ before, call.2 = none := by
  obtain ⟨calls, hlogged, hattends⟩ := v.exists_follow_logged p.tour s d [] []
  have hlength : p.tour.length = 2 * (Item.program p).count := by
    have hbody := Form.length_stopsAll (.program p) p.body
    simp only [p.tour_eq_stops, Item.count, List.length_cons, List.length_append, List.length_nil]
    omega
  exact ⟨p.tour, calls, p.tour_eq_stops, hlength, v.walk_eq_descendProgram p s d, hlogged,
    hattends.isPrefix, hattends.eq_none_iff, hattends.eq_some_iff⟩

end Visitor

end CallForms

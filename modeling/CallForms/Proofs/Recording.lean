import CallForms.Proofs.Places
import CallForms.Proofs.Walk

/-!
What a recorder leaves in its buckets.

The walk with a recorder that never fails leaves the structural recording of the program: part of a
program adds its recording to the bucket it is handed and to no other, since the bucket that a node
opens is put back before the node is left. The recording is then read place by place. A bucket is
opened at a place and filled with what the tour has below it, so all that is to be seen is that the
stops with that opener are among the stops below it, and that none of them belongs further out.
-/

namespace CallForms

/-! ## The walk -/

namespace Bucket

/-- The bucket after part of a program was recorded in it. -/
def extend (b : Bucket) (r : Recording) : Bucket :=
  ⟨b.log ++ r.log.toArray, b.opened ++ r.opened.toArray⟩

@[simp] theorem extend_empty (b : Bucket) : b.extend {} = b := by
  cases b
  simp [extend]

theorem extend_append (b : Bucket) (r s : Recording) :
    b.extend (r.append s) = (b.extend r).extend s := by
  simp [extend, Recording.append]

theorem empty_extend (r : Recording) : ({} : Bucket).extend r = r.toBucket := by
  simp [extend, Recording.toBucket]

theorem write_add_write (b inner : Bucket) (enter leave : Stop) :
    ((b.write enter).add inner).write leave = b.extend ⟨[enter, leave], [inner]⟩ := by
  have hlog : (b.log.push enter).push leave = b.log ++ #[enter, leave] := by
    apply Array.ext'
    simp
  simp [write, add, extend, hlog]

theorem write_extend_write (b : Bucket) (r : Recording) (enter leave : Stop) :
    ((b.write enter).extend r).write leave =
      b.extend ⟨enter :: (r.log ++ [leave]), r.opened⟩ := by
  have hlog : (b.log.push enter ++ r.log.toArray).push leave =
      b.log ++ (enter :: (r.log ++ [leave])).toArray := by
    apply Array.ext'
    simp
  simp only [write, extend, hlog]

end Bucket

namespace Recorder

/-- The walk logs so many stops, leaves this recording and does not fail. -/
def Adds (walk : Nat → Bucket → Walked Nat Bucket) (stops : Nat) (r : Recording) : Prop :=
  ∀ before bucket, walk before bucket = ⟨before + stops, bucket.extend r, none⟩

theorem Adds.around {children : Nat → Bucket → Walked Nat Bucket} {stops : Nat} {r : Recording}
    (h : Adds children stops r) (opens : Item → Bool) (visit : Visit) :
    Adds (Visitor.around (visitor { opens }) visit children) (stops + 2)
      (.around (opens visit.item) visit r) := by
  intro before bucket
  have hcount : before + 1 + stops + 1 = before + (stops + 2) := by omega
  cases hopens : opens visit.item with
  | true =>
      simp only [Visitor.around, visitor, hopens, h _ _, Walked.andThen, Bucket.empty_extend,
        Bucket.write_add_write, Recording.around, hcount, if_true]
  | false =>
      simp only [Visitor.around, visitor, hopens, h _ _, Walked.andThen, id, Recording.around,
        Bucket.write_extend_write, hcount, Bool.false_eq_true, if_false]

theorem adds_nothing : Adds (fun s d => ⟨s, d, none⟩) 0 {} := by
  intro before bucket
  simp

mutual

theorem adds_descend (opens : Item → Bool) (parent : Item) :
    ∀ form : Form, Adds ((visitor { opens }).descend ⟨.form form, some parent⟩ form)
      (2 * form.count) (form.recording opens parent)
  | .number value => adds_nothing.around opens _
  | .string value => adds_nothing.around opens _
  | .call name params => by
      have hparams := adds_descendAll opens (.form (.call name params)) params
      exact hparams.around opens ⟨.form (.call name params), some parent⟩

theorem adds_descendAll (opens : Item → Bool) (parent : Item) :
    ∀ forms : List Form, Adds ((visitor { opens }).descendAll parent forms)
      (2 * Form.countAll forms) (Form.recordingAll opens parent forms)
  | [] => adds_nothing
  | form :: rest => by
      intro before bucket
      rw [Visitor.descendAll_cons, adds_descend opens parent form, Walked.andThen,
        adds_descendAll opens parent rest, Form.recordingAll, Bucket.extend_append]
      simp only [Form.countAll, Walked.mk.injEq, and_true]
      omega

end

theorem walk_eq_recording (opens : Item → Bool) (p : Program) :
    (visitor { opens }).walk p 0 {} =
      ⟨2 * (Item.program p).count, (p.recording opens).toBucket, none⟩ := by
  have hbody := (adds_descendAll opens (.program p) p.body).around opens p.visit
  rw [Visitor.walk_eq_descendProgram, Visitor.descendProgram, hbody, Bucket.empty_extend]
  simp only [Item.count, Program.recording, Walked.mk.injEq, and_true]
  exact ⟨by omega, rfl⟩

end Recorder

/-! ## How much is recorded -/

namespace Recording

def size (r : Recording) : Nat :=
  r.log.length + Bucket.sizeAll r.opened

end Recording

namespace Bucket

theorem sizeAll_append (left right : List Bucket) :
    sizeAll (left ++ right) = sizeAll left + sizeAll right := by
  induction left with
  | nil => simp [sizeAll]
  | cons bucket rest ih =>
      simp only [List.cons_append, sizeAll, ih]
      omega

theorem size_toBucket (r : Recording) : r.toBucket.size = r.size := by
  simp [Recording.toBucket, size, sizeArray, Recording.size]

end Bucket

namespace Recording

theorem size_append (r s : Recording) : (r.append s).size = r.size + s.size := by
  simp only [append, size, List.length_append, Bucket.sizeAll_append]
  omega

theorem size_around (opens : Bool) (visit : Visit) (children : Recording) :
    (around opens visit children).size = children.size + 2 := by
  cases opens with
  | true =>
      simp only [around, size, Bucket.sizeAll, Bucket.size_toBucket, List.length_cons,
        List.length_nil, if_true]
      omega
  | false =>
      simp only [around, size, List.length_cons, List.length_append, List.length_nil,
        Bool.false_eq_true, if_false]
      omega

end Recording

namespace Form

mutual

theorem size_recording (opens : Item → Bool) (parent : Item) :
    ∀ form : Form, (form.recording opens parent).size = 2 * form.count
  | .number value => Recording.size_around _ _ {}
  | .string value => Recording.size_around _ _ {}
  | .call name params => by
      have hparams := size_recordingAll opens (.form (.call name params)) params
      rw [recording, Recording.size_around, hparams, count]
      omega

theorem size_recordingAll (opens : Item → Bool) (parent : Item) :
    ∀ forms : List Form, (recordingAll opens parent forms).size = 2 * countAll forms
  | [] => rfl
  | form :: rest => by
      have hform := size_recording opens parent form
      have hrest := size_recordingAll opens parent rest
      rw [recordingAll, Recording.size_append, countAll]
      omega

end

end Form

theorem Program.size_recording (opens : Item → Bool) (p : Program) :
    (p.recording opens).toBucket.size = 2 * (Item.program p).count := by
  rw [Bucket.size_toBucket, recording, Recording.size_around, Form.size_recordingAll, Item.count]
  omega

/-! ## The recording place by place -/

namespace Bucket

theorem RecordsAll.append {opens : Item → Bool} {tour : List PlacedStop} {left right : List Place}
    {buckets others : List Bucket} (h : RecordsAll opens tour left buckets)
    (hright : RecordsAll opens tour right others) :
    RecordsAll opens tour (left ++ right) (buckets ++ others) := by
  induction left generalizing buckets with
  | nil =>
      cases h
      exact hright
  | cons place rest ih =>
      cases h with
      | cons hbucket hrest => exact .cons hbucket (ih hrest)

end Bucket

/-- The recording has of these stops those that are in the scope, and opens a bucket as it should be
for each chosen node among them. -/
structure Recording.Covers (opens : Item → Bool) (tour : List PlacedStop) (scope : Option Place)
    (stops : List PlacedStop) (r : Recording) : Prop where
  log_eq : r.log = (PlacedStop.inScope opens scope stops).map PlacedStop.stop
  opened : Bucket.RecordsAll opens tour
    (PlacedStop.openers opens (PlacedStop.inScope opens scope stops)) r.opened

namespace PlacedStop

theorem inScope_append (opens : Item → Bool) (scope : Option Place) (left right : List PlacedStop) :
    inScope opens scope (left ++ right) = inScope opens scope left ++ inScope opens scope right :=
  List.filter_append ..

theorem openers_append (opens : Item → Bool) (left right : List PlacedStop) :
    openers opens (left ++ right) = openers opens left ++ openers opens right := by
  simp [openers]

theorem inScope_around (opens : Item → Bool) (place : Place) (stops : List PlacedStop) :
    inScope opens (place.opener? opens) (⟨.enter, place⟩ :: (stops ++ [⟨.leave, place⟩])) =
      ⟨.enter, place⟩ :: (inScope opens (place.opener? opens) stops ++ [⟨.leave, place⟩]) := by
  simp [inScope]

theorem inScope_stopsBelow_eq_nil {opens : Item → Bool} {place : Place}
    (hopens : opens place.item = true) :
    inScope opens (place.opener? opens) place.stopsBelow = [] := by
  rw [inScope, List.filter_eq_nil_iff]
  intro s hs
  simpa using Place.opener?_ne_of_mem_above hopens (Place.mem_above_of_mem_stopsBelow hs)

end PlacedStop

namespace Recording.Covers

variable {opens : Item → Bool} {tour : List PlacedStop}

theorem append {scope : Option Place} {left right : List PlacedStop} {r s : Recording}
    (hr : r.Covers opens tour scope left) (hs : s.Covers opens tour scope right) :
    (r.append s).Covers opens tour scope (left ++ right) where
  log_eq := by
    simp [Recording.append, hr.log_eq, hs.log_eq, PlacedStop.inScope_append]
  opened := by
    rw [PlacedStop.inScope_append, PlacedStop.openers_append]
    exact hr.opened.append hs.opened

theorem around {place : Place} {r : Recording} (htour : place.CompleteIn tour)
    (h : r.Covers opens tour (place.scopeBelow opens) place.stopsBelow) :
    (Recording.around (opens place.item) place.visit r).Covers opens tour (place.opener? opens)
      (⟨.enter, place⟩ :: (place.stopsBelow ++ [⟨.leave, place⟩])) := by
  obtain ⟨hlog, hopened⟩ := h
  cases hopens : opens place.item with
  | true =>
      -- The scope below is the place itself, so nothing below is left for the scope around it.
      have hscope : place.scopeBelow opens = some place := by simp [Place.scopeBelow, hopens]
      rw [hscope, ← htour.inScope_eq] at hlog hopened
      have hbucket : Bucket.Records opens tour (some place) r.toBucket := .intro hlog hopened
      constructor
      · rw [PlacedStop.inScope_around, PlacedStop.inScope_stopsBelow_eq_nil hopens]
        rfl
      · rw [PlacedStop.inScope_around, PlacedStop.inScope_stopsBelow_eq_nil hopens]
        simpa [Recording.around, PlacedStop.openers, hopens] using .cons hbucket .nil
  | false =>
      -- One scope for the place and for what is below it: the recording goes on in one bucket.
      have hscope : place.scopeBelow opens = place.opener? opens := by
        simp [Place.scopeBelow, hopens]
      rw [hscope] at hlog hopened
      constructor
      · rw [PlacedStop.inScope_around]
        simp [Recording.around, hlog, PlacedStop.stop]
      · rw [PlacedStop.inScope_around]
        simpa [Recording.around, PlacedStop.openers, hopens] using hopened

end Recording.Covers

namespace Form

variable {opens : Item → Bool} {tour : List PlacedStop}

theorem covers_around {form : Form} {parent : Place} {index : Nat} {r : Recording}
    (htour : Place.CompleteIn tour (.child parent index form))
    (h : r.Covers opens tour ((Place.child parent index form).scopeBelow opens)
      (Place.child parent index form).stopsBelow) :
    (Recording.around (opens (.form form)) ⟨.form form, some parent.item⟩ r).Covers opens tour
      (parent.scopeBelow opens) (form.placedStops parent index) := by
  rw [placedStops_eq, ← Place.opener?_child opens parent index form]
  exact .around htour h

mutual

theorem covers_recording :
    ∀ (form : Form) {parent : Place} {index : Nat},
      Place.CompleteIn tour (.child parent index form) →
      (form.recording opens parent.item).Covers opens tour (parent.scopeBelow opens)
        (form.placedStops parent index)
  | .number value, parent, index, htour => covers_around htour ⟨rfl, .nil⟩
  | .string value, parent, index, htour => covers_around htour ⟨rfl, .nil⟩
  | .call name params, parent, index, htour => by
      apply covers_around htour
      apply covers_recordingAll params
      intro j form hform
      rw [Nat.zero_add]
      exact htour.child hform

theorem covers_recordingAll :
    ∀ (forms : List Form) {parent : Place} {index : Nat},
      (∀ j form, forms[j]? = some form → Place.CompleteIn tour (.child parent (index + j) form)) →
      (recordingAll opens parent.item forms).Covers opens tour (parent.scopeBelow opens)
        (placedStopsAll parent index forms)
  | [], parent, index, htour => ⟨rfl, .nil⟩
  | form :: rest, parent, index, htour => by
      have hform := covers_recording form (htour 0 form rfl)
      have hrest : ∀ j other, rest[j]? = some other →
          Place.CompleteIn tour (.child parent (index + 1 + j) other) := by
        intro j other hother
        have hnext := htour (j + 1) other hother
        rwa [show index + (j + 1) = index + 1 + j by omega] at hnext
      exact hform.append (covers_recordingAll rest hrest)

end

end Form

/-- The bucket of the whole program holds what it should. -/
theorem Program.records_recording (opens : Item → Bool) (p : Program) :
    (p.recording opens).toBucket.Records opens p.placedTour none := by
  have htour := Place.completeIn_program p
  have hbody : (Form.recordingAll opens (.program p) p.body).Covers opens p.placedTour
      ((Place.program p).scopeBelow opens) (Place.program p).stopsBelow := by
    apply Form.covers_recordingAll p.body
    intro j form hform
    rw [Nat.zero_add]
    exact htour.child hform
  obtain ⟨hlog, hopened⟩ := Recording.Covers.around htour hbody
  exact .intro hlog hopened

/-- Buckets are scoped by ancestry. A recorder that opens a bucket for the children of the nodes it
chooses records the whole tour and does not fail. Each stop is logged in the bucket that the nearest
chosen node above its place opened, or in the first bucket if no such node is there. The stops in a
bucket are in the order of the tour, and the buckets in it are those of the chosen nodes in its
scope, in that order, so that the buckets nest as the program does when the other nodes are
contracted. All of them together hold two stops for every node. -/
theorem Recorder.walk_records_by_ancestry (opens : Item → Bool) (p : Program) :
    ∃ bucket : Bucket,
      (visitor { opens }).walk p 0 {} = ⟨2 * (Item.program p).count, bucket, none⟩ ∧
      p.placedTour.map PlacedStop.stop = p.tour ∧
      bucket.Records opens p.placedTour none ∧
      bucket = (p.recording opens).toBucket ∧
      bucket.size = 2 * (Item.program p).count :=
  ⟨(p.recording opens).toBucket, walk_eq_recording opens p, p.map_stop_placedTour,
    p.records_recording opens, rfl, p.size_recording opens⟩

end CallForms

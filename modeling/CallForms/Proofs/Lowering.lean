import CallForms.Code.Lowered
import CallForms.Code.Lowering
import CallForms.Form.CallText

/-!
Lowering is the structural map on forms.

The walk of a form is followed with any stops still to come and any number of parts open: it pushes
the code of the form onto the destination and leaves the open parts alone. The error that the
visitor has for a call without an argument list is never met, since the code of a call has one with
and without a statement around it.
-/

namespace CallForms

namespace Form

/-- The code of a form that hangs from `parent`. -/
def codeUnder (parent : Item) (form : Form) : Code :=
  if parent.isProgram then form.toLine else form.toCode

/-- The calls that lowering the form comes by. Only the form itself can be at the top level. -/
def loweredCalls (topLevel : Bool) : Form → List LoweredCall
  | call name params => ⟨name, topLevel⟩ :: (callNamesAll params).map fun inner => ⟨inner, false⟩
  | number _ | string _ => []

theorem flatMap_loweredCalls_false (forms : List Form) :
    forms.flatMap (loweredCalls false) = (callNamesAll forms).map fun name => ⟨name, false⟩ := by
  have hform : loweredCalls false = fun form => form.callNames.map fun name => ⟨name, false⟩ := by
    funext form
    cases form <;> simp [loweredCalls, callNames]
  rw [hform, callNamesAll_eq_flatMap, List.map_flatMap]

theorem codeUnder_number (parent : Item) (value : String) :
    (number value).codeUnder parent = .number value := by
  simp [codeUnder, toLine, kind, toCode]

theorem codeUnder_string (parent : Item) (value : String) :
    (string value).codeUnder parent = .string value := by
  simp [codeUnder, toLine, kind, toCode]

theorem codeUnder_call (parent : Item) (name : String) (params : List Form) :
    (call name params).codeUnder parent =
      Lowering.callCode parent.isProgram name (params.map toCode) := by
  cases h : parent.isProgram <;>
    simp [codeUnder, toLine, kind, toCode, toCodes_eq_map, Lowering.callCode, h]

end Form

namespace Lowering

/-- The last code of a list that was just appended to is what was appended. -/
theorem modify_push (dest : Array Code) (code : Code) (f : Code → Code) :
    (dest.push code).modify dest.size f = dest.push (f code) := by
  apply Array.ext
  · simp
  · intro place hplace _
    have hle : place ≤ dest.size := by simpa [Nat.lt_succ_iff] using hplace
    rcases Nat.lt_or_eq_of_le hle with hlt | rfl
    · simp [Array.getElem_modify, Array.getElem_push_lt hlt, Nat.ne_of_gt hlt]
    · simp [Array.getElem_modify]

theorem enter_program (p : Program) (calls : Array LoweredCall) (dest : Array Code) :
    visitor.enter p.visit calls dest = (calls, .opened dest id) := rfl

theorem enter_call (parent : Item) (name : String) (params : List Form)
    (calls : Array LoweredCall) (dest : Array Code) :
    visitor.enter ⟨.form (.call name params), some parent⟩ calls dest =
      (calls.push ⟨name, parent.isProgram⟩,
        .opened #[] fun filled => dest.push (callCode parent.isProgram name filled.toList)) := by
  cases h : parent.isProgram <;>
    simp [visitor, isTopLevel, callCode, h, Code.arguments?, Code.setArguments, modify_push]

mutual

theorem follow_stops (parent : Item) :
    ∀ (form : Form) (stops : List Stop) (calls : Array LoweredCall) (dest : Array Code)
      (closers : List (Array Code → Array Code)),
      visitor.follow (form.stops parent ++ stops) calls dest closers =
        visitor.follow stops (calls ++ (form.loweredCalls parent.isProgram).toArray)
          (dest.push (form.codeUnder parent)) closers
  | .number value, stops, calls, dest, closers => by
      rw [Form.codeUnder_number]
      simp [Form.stops, Form.loweredCalls, Visitor.follow, Visitor.closeInner, visitor]
  | .string value, stops, calls, dest, closers => by
      rw [Form.codeUnder_string]
      simp [Form.stops, Form.loweredCalls, Visitor.follow, Visitor.closeInner, visitor]
  | .call name params, stops, calls, dest, closers => by
      have hcodes : params.map (Form.codeUnder (.form (.call name params))) =
          params.map Form.toCode := by
        simp [Form.codeUnder, Item.isProgram]
      simp only [Form.stops, List.cons_append, List.append_assoc, Visitor.follow_enter, enter_call]
      rw [follow_stopsAll (.form (.call name params)) params, hcodes]
      simp [Visitor.follow, Visitor.closeInner, visitor, Item.isProgram,
        Form.flatMap_loweredCalls_false, Form.codeUnder_call, Form.loweredCalls]

theorem follow_stopsAll (parent : Item) :
    ∀ (forms : List Form) (stops : List Stop) (calls : Array LoweredCall) (dest : Array Code)
      (closers : List (Array Code → Array Code)),
      visitor.follow (Form.stopsAll parent forms ++ stops) calls dest closers =
        visitor.follow stops (calls ++ (forms.flatMap (Form.loweredCalls parent.isProgram)).toArray)
          (dest ++ (forms.map (Form.codeUnder parent)).toArray) closers
  | [], stops, calls, dest, closers => by simp [Form.stopsAll]
  | form :: rest, stops, calls, dest, closers => by
      rw [Form.stopsAll, List.append_assoc, follow_stops parent form, follow_stopsAll parent rest]
      simp

end

end Lowering

/-- Lowering never fails. It gives the structural image of the program, and comes by the calls of
each form in turn. -/
theorem Program.lowering_eq (p : Program) :
    p.lowering = ⟨p.body.flatMap (Form.loweredCalls true), .ok p.toListing⟩ := by
  have hwalk : Lowering.visitor.walk p #[] #[] =
      ⟨(p.body.flatMap (Form.loweredCalls true)).toArray, (p.body.map Form.toLine).toArray,
        none⟩ := by
    have hcodes : p.body.map (Form.codeUnder (.program p)) = p.body.map Form.toLine := by
      simp [Form.codeUnder, Item.isProgram]
    rw [Visitor.walk, tour_eq_stops, Visitor.follow_enter, Lowering.enter_program]
    simp only [Lowering.follow_stopsAll, hcodes]
    simp [Visitor.follow, Visitor.closeInner, Visitor.closeAll, Lowering.visitor, Item.isProgram]
  simp [lowering, hwalk, toListing]

end CallForms

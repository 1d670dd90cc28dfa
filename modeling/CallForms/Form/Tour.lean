import CallForms.Form.Basic
import CallForms.Worklist

/-!
The tour of a program: every node is entered, then its children are toured from left to right,
then it is left again. Each stop knows the node and the node it hangs from.
-/

namespace CallForms

/-- A node that a tour stops at: the program as a whole, or one of its forms. -/
inductive Item where
  | program (p : Program)
  | form (f : Form)
  deriving DecidableEq

namespace Item

def kind : Item → NodeKind
  | program _ => .program
  | form f => f.kind

def children : Item → List Form
  | program p => p.body
  | form f => f.params

/-- A call's name or a literal's value. -/
def payload? : Item → Option String
  | program _ => none
  | form (.number value) | form (.string value) => some value
  | form (.call name _) => some name

def isProgram : Item → Bool
  | program _ => true
  | form _ => false

def count : Item → Nat
  | program p => Form.countAll p.body + 1
  | form f => f.count

@[simp] theorem count_form (f : Form) : (form f).count = f.count := rfl

theorem count_eq (item : Item) : item.count = total Form.count item.children + 1 := by
  cases item with
  | program p => simp [count, children, Form.countAll_eq_total]
  | form f => exact f.count_eq

def describe (item : Item) : String :=
  match item.payload? with
  | none => item.kind.label
  | some payload => item.kind.label ++ "(" ++ payload ++ ")"

end Item

/-- A node together with the node it hangs from, which only the program lacks. -/
structure Visit where
  item : Item
  parent : Option Item
  deriving DecidableEq

inductive Phase where
  | enter
  | leave
  deriving DecidableEq, Repr

structure Stop where
  phase : Phase
  visit : Visit
  deriving DecidableEq

namespace Visit

def children (v : Visit) : List Visit :=
  v.item.children.map fun child => ⟨.form child, some v.item⟩

/-- A visit is entered, passed on to the children and left. -/
def expansion : Expansion Visit Stop where
  expand v := .finished ⟨.enter, v⟩ :: (v.children.map .pending ++ [.finished ⟨.leave, v⟩])
  weight v := v.item.count
  weight_expand_lt v := by
    rw [v.item.count_eq]
    simp [children, Work.weight, total_map]

def tour (v : Visit) : List Stop :=
  expansion.items v

theorem tour_eq (v : Visit) :
    v.tour = ⟨.enter, v⟩ :: (v.children.flatMap tour ++ [⟨.leave, v⟩]) := by
  rw [tour, Expansion.items]
  simp [expansion, Expansion.flatten_append, Expansion.flatten_map_pending]
  rfl

end Visit

def Program.visit (p : Program) : Visit :=
  ⟨.program p, none⟩

def Program.tour (p : Program) : List Stop :=
  p.visit.tour

namespace Form

mutual

/-- The stops at a form and below it, by recursion on the form. -/
def stops (parent : Item) : Form → List Stop
  | number value =>
      [⟨.enter, ⟨.form (number value), some parent⟩⟩, ⟨.leave, ⟨.form (number value), some parent⟩⟩]
  | string value =>
      [⟨.enter, ⟨.form (string value), some parent⟩⟩, ⟨.leave, ⟨.form (string value), some parent⟩⟩]
  | call name params =>
      ⟨.enter, ⟨.form (call name params), some parent⟩⟩ ::
        (stopsAll (.form (call name params)) params ++
          [⟨.leave, ⟨.form (call name params), some parent⟩⟩])

def stopsAll (parent : Item) : List Form → List Stop
  | [] => []
  | form :: rest => form.stops parent ++ stopsAll parent rest

end

theorem stopsAll_eq_flatMap (parent : Item) (forms : List Form) :
    stopsAll parent forms = forms.flatMap (stops parent) := by
  induction forms with
  | nil => rfl
  | cons form rest ih => simp [stopsAll, ih]

theorem tour_visit (parent : Item) (form : Form) :
    Visit.tour ⟨.form form, some parent⟩ = form.stops parent := by
  induction form generalizing parent with
  | number value => simp [Visit.tour_eq, Visit.children, Item.children, params, stops]
  | string value => simp [Visit.tour_eq, Visit.children, Item.children, params, stops]
  | call name params ih =>
      have hbelow :
          params.map (fun param => Visit.tour ⟨.form param, some (.form (call name params))⟩) =
            params.map (stops (.form (call name params))) :=
        List.map_congr_left fun param hparam => ih param hparam _
      rw [Visit.tour_eq]
      simp [Visit.children, Item.children, Form.params, stops, stopsAll_eq_flatMap,
        List.flatMap_def, Function.comp_def, hbelow]

end Form

/-- The tour of a program is the one that recursion on its forms gives. -/
theorem Program.tour_eq_stops (p : Program) :
    p.tour = ⟨.enter, p.visit⟩ :: (Form.stopsAll (.program p) p.body ++ [⟨.leave, p.visit⟩]) := by
  rw [tour, Visit.tour_eq]
  simp [visit, Visit.children, Item.children, List.flatMap_map, Form.stopsAll_eq_flatMap,
    Form.tour_visit]

end CallForms

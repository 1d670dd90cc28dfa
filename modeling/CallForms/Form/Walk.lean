import CallForms.Form.Tour

/-!
Walking a program with a visitor.

A walk follows the tour of the program and calls the visitor at every stop. Each call is handed
the destination that the node writes to. Entering a node decides where its children write: a
visitor opens a part of its destination for them, and the walk puts that part back before the node
is left. The first call that fails ends the walk, and what was written until then stays written. So
does a form of a kind that walks do not know, before the visitor sees it.
-/

namespace CallForms

/-- The kind is named by any text. A visitor may fail with kinds that no node has. -/
inductive WalkError where
  | unknownNode (kind : String)
  /-- The children of a node of this kind have nowhere to be written. -/
  | missingDestination (kind : String)
  deriving DecidableEq, Repr

def WalkError.message : WalkError → String
  | unknownNode kind => "unknown node kind: " ++ kind
  | missingDestination kind => "no destination list for children of " ++ kind

namespace Item

/-- The item that a form is shown to visitors as, if its kind is one of the kinds of forms. -/
def ofForm (form : Form) : Except WalkError Item :=
  if form.kind ∈ Form.kinds then .ok (.form form) else .error (.unknownNode form.kind.label)

/-- The item that is shown at a stop. -/
def shown : Item → Except WalkError Item
  | program p => .ok (.program p)
  | form f => ofForm f

/-- Walks know forms of every kind. -/
@[simp] theorem ofForm_eq (form : Form) : ofForm form = .ok (.form form) := by
  cases form <;> rfl

@[simp] theorem shown_eq (item : Item) : item.shown = .ok item := by
  cases item with
  | program p => rfl
  | form f => exact ofForm_eq f

end Item

/-- What entering a node makes of the destination it was handed. -/
inductive Entered (δ : Type) where
  /-- The children write to `inner`, and `close` puts their result back. -/
  | opened (inner : δ) (close : δ → δ)
  | failed (dest : δ) (error : WalkError)

/-- A visitor has a state of its own besides the destinations. -/
structure Visitor (σ δ : Type) where
  enter : Visit → σ → δ → σ × Entered δ
  leave : Visit → σ → δ → σ × δ × Option WalkError

structure Walked (σ δ : Type) where
  state : σ
  dest : δ
  error? : Option WalkError

namespace Visitor

variable {σ δ : Type}

/-- Hands every node the destination it was handed itself, and writes nothing. -/
def idle : Visitor σ δ where
  enter _ s d := (s, .opened d id)
  leave _ s d := (s, d, none)

/-- Puts every part that is still open back into what it was opened from. -/
def closeAll (closers : List (δ → δ)) (d : δ) : δ :=
  closers.foldl (fun d close => close d) d

/-- Puts the innermost open part back; the rest stays open. -/
def closeInner : (closers : List (δ → δ)) → (d : δ) → δ × List (δ → δ)
  | [], d => (d, [])
  | close :: outer, d => (close d, outer)

/-- Calls the visitor at each stop. `closers` belong to the nodes entered and not yet left, the
innermost one first. -/
def follow (v : Visitor σ δ) : List Stop → σ → δ → (closers : List (δ → δ)) → Walked σ δ
  | [], s, d, closers => ⟨s, closeAll closers d, none⟩
  | ⟨.enter, visit⟩ :: stops, s, d, closers =>
      match visit.item.shown with
      | .error e => ⟨s, closeAll closers d, some e⟩
      | .ok item =>
          match v.enter ⟨item, visit.parent⟩ s d with
          | (s, .opened inner close) => follow v stops s inner (close :: closers)
          | (s, .failed d e) => ⟨s, closeAll closers d, some e⟩
  | ⟨.leave, visit⟩ :: stops, s, d, closers =>
      let (d, outer) := closeInner closers d
      match v.leave visit s d with
      | (s, d, none) => follow v stops s d outer
      | (s, d, some e) => ⟨s, closeAll outer d, some e⟩

/-- No form is refused, so it is the visitor that decides. -/
theorem follow_enter (v : Visitor σ δ) (visit : Visit) (stops : List Stop) (s : σ) (d : δ)
    (closers : List (δ → δ)) :
    v.follow (⟨.enter, visit⟩ :: stops) s d closers =
      match v.enter visit s d with
      | (s, .opened inner close) => v.follow stops s inner (close :: closers)
      | (s, .failed d e) => ⟨s, closeAll closers d, some e⟩ := by
  rw [follow, Item.shown_eq]

def walk (v : Visitor σ δ) (p : Program) (s : σ) (d : δ) : Walked σ δ :=
  v.follow p.tour s d []

/-- The same visitor, which also keeps a list of its calls and of what they answered. -/
def logged (v : Visitor σ δ) : Visitor (σ × List (Stop × Option WalkError)) δ where
  enter visit s d :=
    match v.enter visit s.1 d with
    | (next, .opened inner close) => ((next, s.2 ++ [(⟨.enter, visit⟩, none)]), .opened inner close)
    | (next, .failed d e) => ((next, s.2 ++ [(⟨.enter, visit⟩, some e)]), .failed d e)
  leave visit s d :=
    let (next, d, e?) := v.leave visit s.1 d
    ((next, s.2 ++ [(⟨.leave, visit⟩, e?)]), d, e?)

end Visitor

end CallForms

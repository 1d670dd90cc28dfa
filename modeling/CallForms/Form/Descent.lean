import CallForms.Form.Walk

/-!
Walking a program by recursion on its forms.

Between entering a node and leaving it all of its children are walked, with the destination that
was opened for them. A child is shown as an item first, which is refused to kinds that walks do not
know. An error ends the walk of every node around it: their later children are not entered and they
are not left, but the parts that they opened are put back.
-/

namespace CallForms

variable {σ δ : Type}

/-- Goes on after a walk, unless it ended with an error. -/
def Walked.andThen (w : Walked σ δ) (next : σ → δ → Walked σ δ) : Walked σ δ :=
  match w.error? with
  | none => next w.state w.dest
  | some _ => w

namespace Visitor

/-- Enters a node, walks its children and leaves it. -/
def around (v : Visitor σ δ) (visit : Visit) (children : σ → δ → Walked σ δ) (s : σ) (d : δ) :
    Walked σ δ :=
  match v.enter visit s d with
  | (s, .failed d e) => ⟨s, d, some e⟩
  | (s, .opened inner close) =>
      let below := children s inner
      Walked.andThen ⟨below.state, close below.dest, below.error?⟩ fun s d =>
        let (s, d, e?) := v.leave visit s d
        ⟨s, d, e?⟩

mutual

/-- Walks a form that is shown as an item, which is the parent of the forms in it. -/
def descend (v : Visitor σ δ) (visit : Visit) : Form → σ → δ → Walked σ δ
  | .number _ | .string _ => v.around visit fun s d => ⟨s, d, none⟩
  | .call _ params => v.around visit (descendAll v visit.item params)

def descendAll (v : Visitor σ δ) (parent : Item) : List Form → σ → δ → Walked σ δ
  | [], s, d => ⟨s, d, none⟩
  | form :: rest, s, d =>
      match Item.ofForm form with
      | .error e => ⟨s, d, some e⟩
      | .ok item => (descend v ⟨item, some parent⟩ form s d).andThen (descendAll v parent rest)

end

theorem descendAll_cons (v : Visitor σ δ) (parent : Item) (form : Form) (rest : List Form) (s : σ)
    (d : δ) :
    v.descendAll parent (form :: rest) s d =
      (v.descend ⟨.form form, some parent⟩ form s d).andThen (v.descendAll parent rest) := by
  rw [descendAll, Item.ofForm_eq]

def descendProgram (v : Visitor σ δ) (p : Program) : σ → δ → Walked σ δ :=
  v.around p.visit (v.descendAll (.program p) p.body)

end Visitor

end CallForms

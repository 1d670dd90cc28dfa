/-!
Flattening trees of any depth with a worklist.

An `Expansion` says what one node contributes: finished items, and between them the children whose
own contributions go there. `Expansion.flatten` keeps the work still to do on a list, so a deep
tree costs memory and no call stack. The laws below are all that is needed of it: `flatten`
distributes over `++`, keeps finished items, and replaces a node by what it expands to.
-/

namespace CallForms

section Total

variable {α : Type} (weight : α → Nat)

/-- The weights of the items added up. The instances are written out, so that the sum is the same
one whatever else is imported. -/
def total (items : List α) : Nat :=
  @List.sum Nat instAddNat Zero.ofOfNat0 (items.map weight)

@[simp] theorem total_nil : total weight [] = 0 := rfl

@[simp] theorem total_cons (item : α) (rest : List α) :
    total weight (item :: rest) = weight item + total weight rest := rfl

@[simp] theorem total_append (left right : List α) :
    total weight (left ++ right) = total weight left + total weight right := by
  rw [total, List.map_append, List.sum_append, total, total]

theorem total_map {β : Type} (f : β → α) (items : List β) :
    total weight (items.map f) = total (fun item => weight (f item)) items := by
  rw [total, List.map_map, total, Function.comp_def]

end Total

inductive Work (α β : Type) where
  | finished (item : β)
  | pending (node : α)

/-- Finished items weigh nothing, pending nodes as much as `weight` says. -/
def Work.weight {α β : Type} (weight : α → Nat) : Work α β → Nat
  | finished _ => 0
  | pending node => weight node

/-- How a node unfolds by one level. The children together weigh less than their parent. -/
structure Expansion (α β : Type) where
  expand : α → List (Work α β)
  weight : α → Nat
  weight_expand_lt : ∀ node, total (Work.weight weight) (expand node) < weight node

namespace Expansion

variable {α β : Type} (e : Expansion α β)

def totalWeight (work : List (Work α β)) : Nat :=
  total (Work.weight e.weight) work

theorem totalWeight_expand_lt (node : α) : e.totalWeight (e.expand node) < e.weight node :=
  e.weight_expand_lt node

theorem totalWeight_append (left right : List (Work α β)) :
    e.totalWeight (left ++ right) = e.totalWeight left + e.totalWeight right := by
  simp [totalWeight]

/-- Works the list off from the front and collects the finished items behind `done`. -/
def flattenOnto : (work : List (Work α β)) → (done : Array β) → Array β
  | [], done => done
  | .finished item :: rest, done => flattenOnto rest (done.push item)
  | .pending node :: rest, done => flattenOnto (e.expand node ++ rest) done
termination_by work => (e.totalWeight work, work.length)
decreasing_by
  · apply Prod.Lex.right'
    · simp [totalWeight, Work.weight]
    · simp
  · apply Prod.Lex.left
    have h := e.totalWeight_expand_lt node
    rw [totalWeight_append]
    simp only [totalWeight, total_cons, Work.weight] at h ⊢
    omega

/-- The finished items of a worklist, in order. -/
def flatten (work : List (Work α β)) : List β :=
  (e.flattenOnto work #[]).toList

theorem toList_flattenOnto (work : List (Work α β)) (done : Array β) :
    (e.flattenOnto work done).toList = done.toList ++ e.flatten work := by
  suffices h : ∀ size, ∀ work : List (Work α β), e.totalWeight work = size →
      ∀ done, (e.flattenOnto work done).toList = done.toList ++ (e.flattenOnto work #[]).toList from
    h _ work rfl done
  intro size
  induction size using Nat.strongRecOn with
  | ind size ih =>
      intro work hsize
      induction work generalizing size with
      | nil => simp [flattenOnto]
      | cons head rest ihrest =>
          intro done
          cases head with
          | finished item =>
              have hrest : e.totalWeight rest = size := by
                simpa [totalWeight, Work.weight] using hsize
              have hdone := ihrest size ih hrest
              rw [flattenOnto, flattenOnto, hdone (done.push item), hdone (Array.push #[] item)]
              simp
          | pending node =>
              have hlt : e.totalWeight (e.expand node ++ rest) < size := by
                have h := e.totalWeight_expand_lt node
                rw [totalWeight_append, ← hsize]
                simp only [totalWeight, total_cons, Work.weight] at h ⊢
                omega
              rw [flattenOnto, flattenOnto]
              exact ih _ hlt _ rfl done

@[simp] theorem flatten_nil : e.flatten [] = [] := by
  simp [flatten, flattenOnto]

@[simp] theorem flatten_finished (item : β) (rest : List (Work α β)) :
    e.flatten (.finished item :: rest) = item :: e.flatten rest := by
  rw [flatten, flattenOnto, toList_flattenOnto]
  simp

theorem flatten_pending_cons (node : α) (rest : List (Work α β)) :
    e.flatten (.pending node :: rest) = e.flatten (e.expand node ++ rest) := by
  rw [flatten, flattenOnto, flatten]

theorem flatten_append (left right : List (Work α β)) :
    e.flatten (left ++ right) = e.flatten left ++ e.flatten right := by
  suffices h : ∀ size, ∀ left : List (Work α β), e.totalWeight left = size →
      e.flatten (left ++ right) = e.flatten left ++ e.flatten right from h _ left rfl
  intro size
  induction size using Nat.strongRecOn with
  | ind size ih =>
      intro left hsize
      induction left generalizing size with
      | nil => simp
      | cons head rest ihrest =>
          cases head with
          | finished item =>
              have hrest : e.totalWeight rest = size := by
                simpa [totalWeight, Work.weight] using hsize
              simp [ihrest size ih hrest]
          | pending node =>
              have hlt : e.totalWeight (e.expand node ++ rest) < size := by
                have h := e.totalWeight_expand_lt node
                rw [totalWeight_append, ← hsize]
                simp only [totalWeight, total_cons, Work.weight] at h ⊢
                omega
              rw [List.cons_append, flatten_pending_cons, flatten_pending_cons,
                ← List.append_assoc]
              exact ih _ hlt _ rfl

/-- What a node alone contributes. -/
def items (node : α) : List β :=
  e.flatten (e.expand node)

@[simp] theorem flatten_pending (node : α) (rest : List (Work α β)) :
    e.flatten (.pending node :: rest) = e.items node ++ e.flatten rest := by
  rw [flatten_pending_cons, flatten_append, items]

theorem flatten_map_pending (nodes : List α) :
    e.flatten (nodes.map .pending) = nodes.flatMap e.items := by
  induction nodes with
  | nil => simp
  | cons node rest ih => simp [ih]

theorem flatten_intersperse (mark : β) (nodes : List α) :
    e.flatten ((nodes.map .pending).intersperse (.finished mark)) =
      [mark].intercalate (nodes.map e.items) := by
  match nodes with
  | [] => simp [List.intercalate]
  | [node] => simp [List.intercalate]
  | node :: next :: rest =>
      have ih := flatten_intersperse mark (next :: rest)
      simp only [List.map_cons, List.intercalate, List.intersperse_cons_cons,
        List.flatten_cons] at ih ⊢
      simp [ih]

end Expansion

end CallForms

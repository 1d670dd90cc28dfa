import CallForms.Worklist

/-!
Taking trees apart with a stack.

In every round the top node is taken off the stack, its children are moved onto the stack, and what
is left of the node is released. If children were left in it, releasing it would start a teardown of
its own with a stack of its own, before the next round.
-/

namespace CallForms

/-- The children that are moved out of a node, and what is left of it then. -/
structure Teardown (α : Type) where
  children : α → List α
  left : α → α
  weight : α → Nat
  weight_children_lt : ∀ node, total weight (children node) < weight node
  weight_left_le : ∀ node, weight (left node) ≤ weight node

namespace Teardown

variable {α : Type} (t : Teardown α)

/-- The children of a node as a stack. The top is in front, so it is the last child. -/
def stackOf (node : α) : List α :=
  (t.children node).reverse

/-- The stack after a round. -/
def round : (stack : List α) → List α
  | [] => []
  | node :: stack => t.stackOf node ++ stack

theorem total_weight_stackOf_lt (node : α) : total t.weight (t.stackOf node) < t.weight node := by
  rw [stackOf, total, List.map_reverse, List.sum_reverse]
  exact t.weight_children_lt node

theorem total_weight_round_lt (node : α) (stack : List α) :
    total t.weight (t.round (node :: stack)) < total t.weight (node :: stack) := by
  have h := t.total_weight_stackOf_lt node
  simp only [round, total_append, total_cons]
  omega

/-- The nodes that are taken off while the stack is worked off, in order. Those that a released node
still takes off a stack of its own come right behind it. -/
def popped : (stack : List α) → List α
  | [] => []
  | node :: stack =>
      node :: (popped (t.stackOf (t.left node)) ++ popped (t.round (node :: stack)))
termination_by stack => total t.weight stack
decreasing_by
  · have hchildren := t.total_weight_stackOf_lt (t.left node)
    have hleft := t.weight_left_le node
    simp only [total_cons]
    omega
  · exact t.total_weight_round_lt node stack

/-- The stack after so many rounds. -/
def after : (rounds : Nat) → (stack : List α) → List α
  | 0, stack => stack
  | rounds + 1, stack => after rounds (t.round stack)

/-- Nothing is left in what is released. -/
def Clears : Prop :=
  ∀ node, t.children (t.left node) = []

section Clears

variable {t} (h : t.Clears)

include h

/-- The teardown of what is released has nothing to do. -/
theorem Clears.popped_left (node : α) : t.popped (t.stackOf (t.left node)) = [] := by
  rw [stackOf, h node, List.reverse_nil, popped]

theorem Clears.popped_cons (node : α) (stack : List α) :
    t.popped (node :: stack) = node :: t.popped (t.round (node :: stack)) := by
  rw [popped, h.popped_left, List.nil_append]

/-- A round takes off what is on top of the stack then. -/
theorem Clears.getElem?_popped (rounds : Nat) (stack : List α) :
    (t.popped stack)[rounds]? = (t.after rounds stack).head? := by
  induction rounds generalizing stack with
  | zero =>
      cases stack with
      | nil => simp [after, popped]
      | cons node stack => simp [after, h.popped_cons]
  | succ rounds ih =>
      rw [after, ← ih]
      cases stack with
      | nil => simp [round, popped]
      | cons node stack => rw [h.popped_cons, List.getElem?_cons_succ]

/-- The stack is empty after as many rounds as nodes are taken off, and not before. -/
theorem Clears.after_eq_nil_iff (rounds : Nat) (stack : List α) :
    t.after rounds stack = [] ↔ (t.popped stack).length ≤ rounds := by
  rw [← List.head?_eq_none_iff, ← h.getElem?_popped, List.getElem?_eq_none_iff]

/-- The nodes on the stack and everything below them are taken off, each of them once. A round keeps
them all: it takes off the top node and puts the nodes right below it on the stack. -/
theorem Clears.popped_perm {descendants : α → List α}
    (hdescendants : ∀ node, (descendants node).Perm
      ((t.children node).flatMap fun child => child :: descendants child))
    (stack : List α) :
    (t.popped stack).Perm (stack.flatMap fun node => node :: descendants node) := by
  induction hweight : total t.weight stack using Nat.strongRecOn generalizing stack with
  | ind weight ih =>
      cases stack with
      | nil => simp [popped]
      | cons node stack =>
          have hless := t.total_weight_round_lt node stack
          have hrest := ih _ (hweight ▸ hless) (t.round (node :: stack)) rfl
          have hmoved : ((t.stackOf node).flatMap fun child => child :: descendants child).Perm
              (descendants node) :=
            ((List.reverse_perm _).flatMap_right _).trans (hdescendants node).symm
          rw [h.popped_cons, List.flatMap_cons, List.cons_append]
          rw [round, List.flatMap_append] at hrest
          exact (hrest.trans (hmoved.append_right _)).cons node

theorem Clears.popped_stackOf_perm {descendants : α → List α}
    (hdescendants : ∀ node, (descendants node).Perm
      ((t.children node).flatMap fun child => child :: descendants child))
    (node : α) : (t.popped (t.stackOf node)).Perm (descendants node) := by
  have hpopped := h.popped_perm hdescendants (t.stackOf node)
  have hstack : (t.stackOf node).Perm (t.children node) := List.reverse_perm _
  exact (hpopped.trans (hstack.flatMap_right _)).trans (hdescendants node).symm

end Clears

end Teardown

end CallForms

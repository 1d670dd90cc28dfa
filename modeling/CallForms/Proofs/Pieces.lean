import CallForms.Code.Nodes
import CallForms.Proofs.Rendering
import Mathlib.Algebra.BigOperators.Group.List.Basic

/-!
Rendering fills the marks of pieces that do not depend on the layout.

How often a mark stands among the pieces, and how long their texts are, is weighed on the nodes:
whatever each piece may weigh, the pieces of code weigh what its nodes add one by one. Every count
is this for a weight of its own.
-/

namespace CallForms

section Total

variable {α β : Type}

theorem total_add (weight other : α → Nat) (items : List α) :
    total (fun item => weight item + other item) items =
      total weight items + total other items :=
  List.sum_map_add

theorem total_flatMap (weight : β → Nat) (f : α → List β) (items : List α) :
    total weight (items.flatMap f) = total (fun item => total weight (f item)) items := by
  rw [total, List.map_flatMap, List.flatMap_def, List.sum_flatten, List.map_map]
  rfl

/-- Items that weigh the same if they count and nothing if not. -/
theorem total_ite (each : Nat) (counts : α → Bool) (items : List α) :
    total (fun item => if counts item then each else 0) items = each * items.countP counts := by
  induction items with
  | nil => rfl
  | cons item rest ih => by_cases h : counts item <;> simp [h, ih, Nat.mul_add, Nat.add_comm]

theorem total_intercalate (weight : α → Nat) (mark : α) (items : List (List α)) :
    total weight ([mark].intercalate items) =
      total (total weight) items + (items.length - 1) * weight mark := by
  induction items with
  | nil => simp
  | cons item rest ih =>
      cases rest with
      | nil => simp
      | cons next rest =>
          simp only [List.length_cons, Nat.add_sub_cancel] at ih ⊢
          simp only [List.intercalate_cons_cons, total_append, total_cons, total_nil, Nat.add_mul,
            Nat.one_mul] at ih ⊢
          omega

end Total

namespace Code

/-- What a node adds to the weight of the nodes in it. -/
def ownWeight (weight : Piece → Nat) : Code → Nat
  | statement _ => weight .terminatorMark
  | call callee arguments =>
      weight (.text callee) + weight (.text "(") + weight (.text ")") +
        (arguments.length - 1) * weight .argumentMark
  | identifier name => weight (.text name)
  | number value => weight (.text value)
  | string value => weight (.text "\"") + weight (.text value) + weight (.text "\"")

theorem total_pieces (weight : Piece → Nat) (code : Code) :
    total weight code.pieces = total (ownWeight weight) code.nodes := by
  induction code with
  | statement expression ih =>
      simp only [pieces, nodes, inner_statement, ownWeight, total_append, total_cons,
        total_nil] at ih ⊢
      omega
  | call callee arguments ih =>
      have harguments : total (total weight) (arguments.map pieces) =
          total (ownWeight weight) (arguments.flatMap nodes) := by
        rw [total_flatMap, total_map, total, List.map_congr_left ih, total]
      simp only [pieces, piecesEach_eq_map, nodes, inner_call, ownWeight, total_append, total_cons,
        total_nil, total_intercalate, List.length_map, harguments]
      omega
  | identifier name => simp [pieces, nodes, ownWeight]
  | number value => simp [pieces, nodes, ownWeight]
  | string value =>
      simp only [pieces, nodes, inner_string, ownWeight, total_cons, total_nil]
      omega

theorem ownWeight_argumentMark (code : Code) :
    code.ownWeight (fun piece => if piece == .argumentMark then 1 else 0) = code.argumentGaps := by
  cases code <;> simp [ownWeight, argumentGaps]

theorem ownWeight_terminatorMark (code : Code) :
    code.ownWeight (fun piece => if piece == .terminatorMark then 1 else 0) =
      if code.kind = .statement then 1 else 0 := by
  cases code <;> simp [ownWeight, kind]

theorem ownWeight_lineMark (code : Code) :
    code.ownWeight (fun piece => if piece == .lineMark then 1 else 0) = 0 := by
  cases code <;> simp [ownWeight]

theorem ownWeight_bytes (code : Code) :
    code.ownWeight Piece.bytes =
      code.payloadBytes + (if code.kind = .string then 2 else 0) +
        (if code.kind = .call then 2 else 0) := by
  have hquote : "\"".utf8ByteSize = 1 := rfl
  have hopen : "(".utf8ByteSize = 1 := rfl
  have hclose : ")".utf8ByteSize = 1 := rfl
  cases code with
  | string value =>
      simp only [ownWeight, Piece.bytes, payloadBytes, kind, hquote, if_true, reduceCtorEq,
        if_false]
      omega
  | call callee arguments =>
      simp only [ownWeight, Piece.bytes, payloadBytes, kind, hopen, hclose, if_true, reduceCtorEq,
        if_false]
      omega
  | _ => simp [ownWeight, Piece.bytes, payloadBytes, kind]

end Code

namespace Listing

theorem total_pieces (weight : Piece → Nat) (listing : Listing) :
    total weight listing.pieces =
      total (Code.ownWeight weight) listing.nodes +
        (listing.body.length - 1) * weight .lineMark := by
  rw [pieces, total_intercalate, total_map, List.length_map, nodes, total_flatMap]
  simp only [Code.total_pieces]

/-- The number of times a mark stands among the pieces. -/
theorem count_pieces (mark : Piece) (listing : Listing) :
    listing.pieces.count mark =
      total (Code.ownWeight fun piece => if piece == mark then 1 else 0) listing.nodes +
        (listing.body.length - 1) * if Piece.lineMark == mark then 1 else 0 := by
  rw [← total_pieces, total_ite, Nat.one_mul, List.count_eq_countP]

/-- Rendering never fails and is parametric in the layout: the pieces are fixed, and a layout only
fills their marks, also when everything is written into one text by recursion. There is a mark for
an argument separator at every place between neighbouring arguments, one for a terminator in every
statement and one for a line separator between neighbours in the body. The texts have the bytes of
all payloads, and two more for every string and every call. -/
theorem render_fills_marks (listing : Listing) :
    ∃ pieces : List Piece,
      (∀ config : Config,
        listing.render config.toLayout = .ok (config.toLayout.assemble pieces) ∧
        listing.write config.toLayout = .ok (config.toLayout.assemble pieces)) ∧
      pieces.count .argumentMark = total Code.argumentGaps listing.nodes ∧
      pieces.count .terminatorMark = listing.nodes.countP (·.kind = .statement) ∧
      pieces.count .lineMark = listing.body.length - 1 ∧
      total Piece.bytes pieces =
        total Code.payloadBytes listing.nodes +
          2 * listing.nodes.countP (·.kind = .string) +
          2 * listing.nodes.countP (·.kind = .call) := by
  refine ⟨listing.pieces, ?_, ?_, ?_, ?_, ?_⟩
  · intro config
    have hrender := listing.render_eq_text config.toLayout
    exact ⟨hrender, (listing.write_eq_render config.toLayout).trans hrender⟩
  · rw [count_pieces, funext Code.ownWeight_argumentMark]
    simp
  · have hterminators := total_ite 1 (fun node : Code => node.kind = .statement) listing.nodes
    rw [count_pieces, funext Code.ownWeight_terminatorMark]
    simpa using hterminators
  · have hnothing := total_ite 0 (fun _ : Code => true) listing.nodes
    rw [count_pieces, funext Code.ownWeight_lineMark]
    simpa using hnothing
  · have hstrings := total_ite 2 (fun node : Code => node.kind = .string) listing.nodes
    have hcalls := total_ite 2 (fun node : Code => node.kind = .call) listing.nodes
    rw [total_pieces, funext Code.ownWeight_bytes, total_add, total_add, ← hstrings, ← hcalls]
    simp [Piece.bytes]

end Listing

end CallForms

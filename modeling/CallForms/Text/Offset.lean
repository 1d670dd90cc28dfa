import CallForms.Text.Cursor

/-!
Going through a text by byte offset alone.

A place in the text is a number here and promises nothing. Whoever looks at the text takes a slice
of it, and a slice is refused unless its ends are in order and stand between characters. `none` is a
refusal, and it ends whatever was going on.
-/

namespace CallForms

namespace Offset

/-- The text between two offsets. -/
def slice? (text : String) (start stop : Nat) : Option String :=
  if h : start ≤ stop ∧ String.Pos.Raw.IsValid text ⟨start⟩ ∧
      String.Pos.Raw.IsValid text ⟨stop⟩ then
    some (text.extract (text.pos ⟨start⟩ h.2.1) (text.pos ⟨stop⟩ h.2.2))
  else
    none

def atEnd (text : String) (offset : Nat) : Bool :=
  text.utf8ByteSize ≤ offset

/-- The first character of the slice that reaches to the end of the text, if there is one. -/
def peek? (text : String) (offset : Nat) : Option (Option Char) :=
  (slice? text offset text.utf8ByteSize).map fun ahead => ahead.toList.head?

theorem slice?_eq_some_iff {text content : String} {start stop : Nat} :
    slice? text start stop = some content ↔
      ∃ front back, text = front ++ content ++ back ∧ front.utf8ByteSize = start ∧
        (front ++ content).utf8ByteSize = stop := by
  unfold slice?
  split
  · next h =>
    have hle : text.pos ⟨start⟩ h.2.1 ≤ text.pos ⟨stop⟩ h.2.2 := h.1
    rw [String.extract_eq_copy_slice _ _ hle, Option.some.injEq]
    constructor
    · intro hcopy
      obtain ⟨front, back, hfirst, hlast⟩ := String.copy_slice_eq_iff_splits.mp ⟨hle, hcopy⟩
      refine ⟨front, back, hlast.eq_append, ?_, ?_⟩
      · simpa [String.Pos.Raw.ext_iff] using hfirst.offset_eq_rawEndPos.symm
      · simpa [String.Pos.Raw.ext_iff] using hlast.offset_eq_rawEndPos.symm
    · rintro ⟨front, back, htext, hstart, hstop⟩
      refine (String.copy_slice_eq_iff_splits.mpr ⟨front, back, ⟨?_, ?_⟩, ⟨htext, ?_⟩⟩).2
      · rw [htext, String.append_assoc]
      · simpa [String.Pos.Raw.ext_iff] using hstart.symm
      · simpa [String.Pos.Raw.ext_iff] using hstop.symm
  · next h =>
    simp only [reduceCtorEq, false_iff]
    rintro ⟨front, back, htext, hstart, hstop⟩
    refine h ⟨?_, ?_, ?_⟩
    · rw [← hstart, ← hstop, String.utf8ByteSize_append]
      omega
    · rw [String.Pos.Raw.isValid_iff_exists_append]
      exact ⟨front, content ++ back, by rw [htext, String.append_assoc],
        by simp [String.Pos.Raw.ext_iff, hstart]⟩
    · rw [String.Pos.Raw.isValid_iff_exists_append]
      exact ⟨front ++ content, back, htext, by simpa [String.Pos.Raw.ext_iff] using hstop.symm⟩

/-- A character that is seen lies wholly in the text. -/
theorem add_utf8Size_le_of_peek? {text : String} {offset : Nat} {ch : Char}
    (h : peek? text offset = some (some ch)) : offset + ch.utf8Size ≤ text.utf8ByteSize := by
  obtain ⟨ahead, hslice, hhead⟩ := Option.map_eq_some_iff.mp h
  obtain ⟨front, back, -, hstart, hstop⟩ := slice?_eq_some_iff.mp hslice
  obtain ⟨rest, hrest⟩ := List.head?_eq_some_iff.mp hhead
  have hahead : ahead = String.singleton ch ++ String.ofList rest := by
    rw [← String.toList_inj, hrest]
    simp
  rw [hahead] at hstop
  simp only [String.utf8ByteSize_append, String.utf8ByteSize_singleton, hstart] at hstop
  omega

/-- The character ahead and the offset behind it, which is the same one at the end of the text. -/
def advance? (text : String) (offset : Nat) : Option (Option Char × Nat) :=
  (peek? text offset).map fun seen => (seen, offset + seen.elim 0 Char.utf8Size)

theorem le_of_advance? {text : String} {offset behind : Nat} {seen : Option Char}
    (h : advance? text offset = some (seen, behind)) : offset ≤ behind := by
  obtain ⟨_, -, hpair⟩ := Option.map_eq_some_iff.mp h
  cases hpair
  exact Nat.le_add_right _ _

theorem lt_of_advance? {text : String} {offset behind : Nat} {seen : Option Char} {ch : Char}
    (hpeek : peek? text offset = some (some ch)) (h : advance? text offset = some (seen, behind)) :
    offset < behind := by
  have hpos := ch.utf8Size_pos
  rw [advance?, hpeek, Option.map_some, Option.some.injEq, Prod.mk.injEq] at h
  rw [← h.2, Option.elim_some]
  omega

/-- The offset of the first character that fails `p`, or of the end of the text. -/
def skipWhile? (text : String) (p : Char → Bool) (offset : Nat) : Option Nat :=
  match h : peek? text offset with
  | none => none
  | some none => some offset
  | some (some ch) =>
      if p ch then
        have := add_utf8Size_le_of_peek? h
        have := ch.utf8Size_pos
        skipWhile? text p (offset + ch.utf8Size)
      else
        some offset
termination_by text.utf8ByteSize - offset

theorem le_of_skipWhile? {text : String} {p : Char → Bool} {offset behind : Nat}
    (h : skipWhile? text p offset = some behind) : offset ≤ behind := by
  fun_induction skipWhile? text p offset with
  | case1 => cases h
  | case2 => simp_all
  | case3 offset ch _ _ _ _ ih =>
      have := ih h
      omega
  | case4 => simp_all

section SkipWhile

variable {text : String} {p : Char → Bool} {offset : Nat} {ch : Char}

theorem skipWhile?_end (hpeek : peek? text offset = some none) :
    skipWhile? text p offset = some offset := by
  rw [skipWhile?]
  split <;> simp_all

theorem skipWhile?_stop (hpeek : peek? text offset = some (some ch)) (hp : p ch = false) :
    skipWhile? text p offset = some offset := by
  rw [skipWhile?]
  split <;> simp_all

theorem skipWhile?_pass (hpeek : peek? text offset = some (some ch)) (hp : p ch = true) :
    skipWhile? text p offset = skipWhile? text p (offset + ch.utf8Size) := by
  rw [skipWhile?]
  split <;> simp_all

theorem lt_of_skipWhile? {behind : Nat} (hpeek : peek? text offset = some (some ch))
    (hp : p ch = true) (h : skipWhile? text p offset = some behind) : offset < behind := by
  rw [skipWhile?_pass hpeek hp] at h
  have hle := le_of_skipWhile? h
  have hpos := ch.utf8Size_pos
  omega

end SkipWhile

/-- What an operation answers and the offset it leaves. A slice that the caller asks for may be
refused and the next operation goes on; a refusal anywhere else does not leave an answer. -/
def step? (text : String) (offset : Nat) : CursorOp → Option (CursorAnswer × Nat)
  | .peek => (peek? text offset).map fun seen => (.char seen, offset)
  | .advance => (advance? text offset).map fun (seen, behind) => (.char seen, behind)
  | .skipWhile p => (skipWhile? text p offset).map fun behind => (.nothing, behind)
  | .textFrom start => some (.text (slice? text start offset), offset)

def run? (text : String) : (offset : Nat) → List CursorOp → Option (List (CursorAnswer × Nat))
  | _, [] => some []
  | offset, op :: ops =>
      (step? text offset op).bind fun step => (run? text step.2 ops).map fun rest => step :: rest

end Offset

end CallForms

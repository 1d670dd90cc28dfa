import CallForms.Proofs.Joining
import CallForms.Token.Offset

/-!
A cursor is never refused anything but a slice that begins in the wrong place.

Access by offset and the cursor do the same, step by step: a cursor in a text has the characters in
front of it and those behind it as the two parts of the text, so its offset stands between
characters whatever was done before. Scanning by offset then finds what the scanner finds.
-/

namespace CallForms

/-- A text has one part of a given length in front. -/
theorem append_inj_of_utf8ByteSize {left right other rest : String}
    (hsize : left.utf8ByteSize = other.utf8ByteSize) (h : left ++ right = other ++ rest) :
    left = other := by
  rw [← firstBytes_append left right, h, hsize, firstBytes_append]

namespace Cursor

/-- The characters passed so far, in the order they were passed. -/
def consumed (c : Cursor) : String :=
  String.ofList c.passed.reverse

def ahead (c : Cursor) : String :=
  String.ofList c.rest

/-- The cursor stands somewhere in the text. -/
def IsIn (text : String) (c : Cursor) : Prop :=
  text = c.consumed ++ c.ahead

def after (c : Cursor) (ops : List CursorOp) : Cursor :=
  ops.foldl (fun c op => op.apply c) c

theorem offset_eq_utf8ByteSize (c : Cursor) : c.offset = c.consumed.utf8ByteSize := by
  rw [c.offset_eq, consumed, ← byteLength_toList, String.toList_ofList, byteLength_reverse]

section Moves

variable (c : Cursor)

theorem consumed_skipWhile (p : Char → Bool) :
    (c.skipWhile p).consumed = c.consumed ++ String.ofList (c.rest.takeWhile p) := by
  simp [consumed, skipWhile, String.ofList_append]

theorem consumed_advance :
    c.advance.consumed = c.consumed ++ c.peek?.elim "" String.singleton := by
  unfold advance peek?
  split
  · next hrest => simp [hrest]
  · next ch rest hrest => simp [hrest, consumed, String.ofList_append]

theorem offset_advance : c.advance.offset = c.offset + c.peek?.elim 0 Char.utf8Size := by
  unfold advance peek?
  split
  · next hrest => simp [hrest]
  · next ch rest hrest => simp [hrest]

end Moves

section Within

variable {text : String} {c : Cursor}

theorem isIn_ofText (text : String) : (ofText text).IsIn text := by
  simp [IsIn, consumed, ahead, ofText]

theorem IsIn.skipWhile (h : c.IsIn text) (p : Char → Bool) : (c.skipWhile p).IsIn text := by
  rw [IsIn, consumed_skipWhile, String.append_assoc, h, ahead, ahead, ← String.ofList_append]
  simp [Cursor.skipWhile]

theorem IsIn.advance (h : c.IsIn text) : c.advance.IsIn text := by
  rw [IsIn, consumed_advance, String.append_assoc, h]
  unfold Cursor.advance peek?
  split
  · next hrest => simp [hrest]
  · next ch rest hrest => simp [hrest, ahead]

theorem IsIn.apply (h : c.IsIn text) (op : CursorOp) : (op.apply c).IsIn text := by
  cases op with
  | peek => exact h
  | advance => exact h.advance
  | skipWhile p => exact h.skipWhile p
  | textFrom start => exact h

theorem IsIn.after (h : c.IsIn text) (ops : List CursorOp) : (c.after ops).IsIn text := by
  induction ops generalizing c with
  | nil => exact h
  | cons op ops ih => exact ih (h.apply op)

theorem IsIn.utf8ByteSize_eq (h : c.IsIn text) :
    text.utf8ByteSize = c.offset + byteLength c.rest := by
  rw [h, String.utf8ByteSize_append, ← offset_eq_utf8ByteSize, ahead, ← byteLength_toList,
    String.toList_ofList]

end Within

theorem takeBytesBack_eq_some_iff {size : Nat} {backwards taken content : List Char} :
    takeBytesBack size backwards taken = some content ↔
      ∃ run before, backwards = run ++ before ∧ byteLength run = size ∧
        content = run.reverse ++ taken := by
  constructor
  · intro h
    fun_induction takeBytesBack size backwards taken with
    | case1 backwards taken =>
        cases h
        exact ⟨[], backwards, rfl, rfl, rfl⟩
    | case2 => cases h
    | case3 size ch before taken hle ih =>
        obtain ⟨run, before, rfl, hrun, rfl⟩ := ih h
        exact ⟨ch :: run, before, rfl, by rw [byteLength_cons]; omega, by simp⟩
    | case4 => cases h
  · rintro ⟨run, before, rfl, rfl, rfl⟩
    exact takeBytesBack_append run before taken

/-- A slice is what the cursor passed last, from behind the first `start` bytes on. -/
theorem textFrom?_eq_some_iff {c : Cursor} {start : Nat} {content : String} :
    c.textFrom? start = some content ↔
      ∃ front, c.consumed = front ++ content ∧ front.utf8ByteSize = start := by
  have hoffset := c.offset_eq_utf8ByteSize
  constructor
  · intro h
    rw [textFrom?] at h
    split at h
    · next hle =>
      obtain ⟨taken, htaken, rfl⟩ := Option.map_eq_some_iff.mp h
      obtain ⟨run, before, hpassed, hrun, rfl⟩ := takeBytesBack_eq_some_iff.mp htaken
      have hconsumed : c.consumed = String.ofList before.reverse ++ String.ofList run.reverse := by
        rw [consumed, hpassed, List.reverse_append, String.ofList_append]
      have hsize : (String.ofList run.reverse).utf8ByteSize = c.offset - start := by
        rw [← byteLength_toList, String.toList_ofList, byteLength_reverse, hrun]
      refine ⟨String.ofList before.reverse, by rw [List.append_nil, hconsumed], ?_⟩
      rw [hconsumed, String.utf8ByteSize_append, hsize] at hoffset
      omega
    · cases h
  · rintro ⟨front, hconsumed, rfl⟩
    rw [hconsumed, String.utf8ByteSize_append] at hoffset
    have hpassed : c.passed = content.toList.reverse ++ front.toList.reverse := by
      have hlist := congrArg String.toList hconsumed
      rw [consumed, String.toList_ofList, String.toList_append] at hlist
      rw [← List.reverse_append, ← hlist, List.reverse_reverse]
    have htaken : takeBytesBack (c.offset - front.utf8ByteSize) c.passed [] =
        some content.toList := by
      rw [takeBytesBack_eq_some_iff]
      refine ⟨content.toList.reverse, front.toList.reverse, hpassed, ?_, by simp⟩
      rw [byteLength_reverse, byteLength_toList]
      omega
    rw [textFrom?, if_pos (by omega), htaken, Option.map_some, String.ofList_toList]

end Cursor

namespace Cursor.IsIn

variable {text : String} {c : Cursor}

theorem slice?_eq (h : c.IsIn text) (start : Nat) :
    Offset.slice? text start c.offset = c.textFrom? start := by
  have hoffset := c.offset_eq_utf8ByteSize
  ext content
  rw [Offset.slice?_eq_some_iff, textFrom?_eq_some_iff]
  constructor
  · rintro ⟨front, back, htext, hstart, hstop⟩
    exact ⟨front, append_inj_of_utf8ByteSize (by rw [hstop, hoffset]) (h.symm.trans htext), hstart⟩
  · rintro ⟨front, hconsumed, hstart⟩
    exact ⟨front, c.ahead, by rw [← hconsumed]; exact h, hstart, by rw [← hconsumed, hoffset]⟩

theorem peek?_eq (h : c.IsIn text) : Offset.peek? text c.offset = some c.peek? := by
  have hslice : Offset.slice? text c.offset text.utf8ByteSize = some c.ahead :=
    Offset.slice?_eq_some_iff.mpr
      ⟨c.consumed, "", by rw [String.append_empty]; exact h, c.offset_eq_utf8ByteSize.symm,
        by rw [← h]⟩
  rw [Offset.peek?, hslice, Option.map_some, ahead, String.toList_ofList]
  rfl

theorem atEnd_eq (h : c.IsIn text) : Offset.atEnd text c.offset = c.atEnd := by
  rw [Offset.atEnd, h.utf8ByteSize_eq, Cursor.atEnd]
  cases c.rest with
  | nil => simp
  | cons ch rest =>
      have hpos := ch.utf8Size_pos
      rw [byteLength_cons, List.isEmpty_cons, decide_eq_false_iff_not]
      omega

theorem advance?_eq (h : c.IsIn text) :
    Offset.advance? text c.offset = some (c.peek?, c.advance.offset) := by
  rw [Offset.advance?, h.peek?_eq, Option.map_some, offset_advance]

theorem skipWhile?_eq (h : c.IsIn text) (p : Char → Bool) :
    Offset.skipWhile? text p c.offset = some (c.skipWhile p).offset := by
  induction hrest : c.rest generalizing c with
  | nil =>
      have hpeek := h.peek?_eq
      rw [peek?, hrest, List.head?_nil] at hpeek
      rw [Offset.skipWhile?_end hpeek]
      simp [Cursor.skipWhile, hrest]
  | cons ch rest ih =>
      have hpeek := h.peek?_eq
      rw [peek?_cons hrest] at hpeek
      cases hp : p ch with
      | false =>
          rw [Offset.skipWhile?_stop hpeek hp]
          simp [Cursor.skipWhile, hrest, hp]
      | true =>
          obtain ⟨hbehind, hoffset⟩ := advance_cons hrest
          rw [Offset.skipWhile?_pass hpeek hp, ← hoffset, ih h.advance hbehind]
          simp [Cursor.skipWhile, hbehind, hrest, hp, hoffset, Nat.add_assoc]

/-- One operation answers by offset what it answers on the cursor. -/
theorem step?_eq (h : c.IsIn text) (op : CursorOp) :
    Offset.step? text c.offset op = some (op.answer c, (op.apply c).offset) := by
  cases op with
  | peek => simp [Offset.step?, h.peek?_eq, CursorOp.answer, CursorOp.apply]
  | advance => simp [Offset.step?, h.advance?_eq, CursorOp.answer, CursorOp.apply]
  | skipWhile p => simp [Offset.step?, h.skipWhile?_eq, CursorOp.answer, CursorOp.apply]
  | textFrom start => simp [Offset.step?, h.slice?_eq, CursorOp.answer, CursorOp.apply]

theorem run?_eq (h : c.IsIn text) (ops : List CursorOp) :
    Offset.run? text c.offset ops =
      some ((c.run ops).map fun (answer, behind) => (answer, behind.offset)) := by
  induction ops generalizing c with
  | nil => rfl
  | cons op ops ih =>
      rw [Offset.run?, h.step?_eq, Option.bind_some, ih (h.apply op), Cursor.run]
      rfl

end Cursor.IsIn

theorem Token.start_eq_nothing_iff (c : Cursor) : start c = .nothing ↔ c.atEnd = true := by
  cases hrest : c.rest with
  | nil => simp [start, Cursor.peek?, Cursor.atEnd, hrest]
  | cons ch rest =>
      have hquoted : quoted c ≠ .nothing := by
        rw [quoted]
        split <;> simp
      simp only [start, Cursor.peek?_cons hrest, Cursor.atEnd, hrest, munched, List.isEmpty_cons,
        Bool.false_eq_true, iff_false]
      split_ifs <;> simp [hquoted]

/-- What is found by offset where a cursor finds this. -/
def Lookahead.byOffset? : Lookahead → Option (Except LexError (Token × Nat))
  | nothing => none
  | token t behind => some (.ok (t, behind.offset))
  | error e => some (.error e)

namespace Cursor.IsIn

variable {text : String} {c : Cursor}

theorem munched?_eq (h : c.IsIn text) (kind : TokenKind) (p : Char → Bool) :
    Offset.munched? text kind p c.offset = (Token.munched kind p c).byOffset? := by
  rw [Offset.munched?, h.skipWhile?_eq, Option.bind_some, (h.skipWhile p).slice?_eq,
    textFrom?_skipWhile]
  simp [Token.munched, Lookahead.byOffset?]

theorem quoted?_eq (h : c.IsIn text) :
    Offset.quoted? text c.offset = (Token.quoted c).byOffset? := by
  have hinner := h.advance
  have hstop := hinner.skipWhile (· != Token.quote)
  simp only [Offset.quoted?, h.advance?_eq, hinner.skipWhile?_eq, hstop.peek?_eq, hstop.slice?_eq,
    textFrom?_skipWhile, hstop.advance?_eq, Option.bind_some, Option.map_some, Token.quoted,
    munch_fst, munch_snd]
  cases (c.advance.skipWhile (· != Token.quote)).peek? <;> rfl

theorem token?_eq (h : c.IsIn text) :
    Offset.token? text c.offset = (Token.start c).byOffset? := by
  rw [Offset.token?, h.peek?_eq, Option.bind_some, Token.start]
  cases c.peek? with
  | none => rfl
  | some ch =>
      simp only [h.advance?_eq, h.quoted?_eq, h.munched?_eq, Option.map_some]
      split_ifs <;> rfl

theorem of_quoted {t : Token} {behind : Cursor} (h : c.IsIn text)
    (hquoted : Token.quoted c = .token t behind) : behind.IsIn text := by
  simp only [Token.quoted] at hquoted
  split at hquoted
  · cases hquoted
  · cases hquoted
    exact (h.advance.skipWhile _).advance

theorem of_start {t : Token} {behind : Cursor} (h : c.IsIn text)
    (hstart : Token.start c = .token t behind) : behind.IsIn text := by
  rw [Token.start] at hstart
  split at hstart
  · cases hstart
  · split_ifs at hstart
    · cases hstart
      exact h.advance
    · cases hstart
      exact h.advance
    · exact h.of_quoted hstart
    · cases hstart
      exact h.skipWhile _
    · cases hstart
      exact h.skipWhile _

/-- Scanning by offset is never refused anything and finds what the scanner finds. -/
theorem scanFrom?_eq (h : c.IsIn text) (found : Array Token) :
    Offset.scanFrom? text c.offset found = some (Scan.continueFrom c found) := by
  induction hlength : c.rest.length using Nat.strongRecOn generalizing c found with
  | ind length ih =>
      have hskip := h.skipWhile?_eq isSeparator
      have hin := h.skipWhile isSeparator
      have htoken := hin.token?_eq
      have hend : Offset.atEnd text (c.skipWhile isSeparator).offset = true ↔
          Token.next c = .nothing := by
        rw [hin.atEnd_eq, Token.next, Token.start_eq_nothing_iff]
      rw [← Token.next] at htoken
      cases hnext : Token.next c with
      | nothing =>
          rw [Offset.scanFrom?_end hskip (hend.mpr hnext), Scan.continueFrom_nothing hnext]
      | error e =>
          rw [hnext] at hend htoken
          rw [Offset.scanFrom?_error hskip (by simpa using hend) htoken,
            Scan.continueFrom_error hnext]
      | token t behind =>
          rw [hnext] at hend htoken
          have hshorter := Token.length_rest_next_lt hnext
          rw [Offset.scanFrom?_token hskip (by simpa using hend) htoken,
            Scan.continueFrom_token hnext]
          exact ih _ (hlength ▸ hshorter) (hin.of_start hnext) _ rfl

end Cursor.IsIn

namespace Cursor

section After

variable (c : Cursor)

theorem exists_consumed_apply (op : CursorOp) :
    ∃ since, (op.apply c).consumed = c.consumed ++ since := by
  cases op with
  | peek => exact ⟨"", String.append_empty.symm⟩
  | advance => exact ⟨_, c.consumed_advance⟩
  | skipWhile p => exact ⟨_, c.consumed_skipWhile p⟩
  | textFrom start => exact ⟨"", String.append_empty.symm⟩

/-- What was passed once stays passed. -/
theorem exists_consumed_after (ops : List CursorOp) :
    ∃ since, (c.after ops).consumed = c.consumed ++ since := by
  induction ops generalizing c with
  | nil => exact ⟨"", String.append_empty.symm⟩
  | cons op ops ih =>
      obtain ⟨first, hfirst⟩ := c.exists_consumed_apply op
      obtain ⟨more, hmore⟩ := ih (op.apply c)
      exact ⟨first ++ more, by rw [← String.append_assoc, ← hfirst, ← hmore]; rfl⟩

/-- The offset of an earlier moment marks where what was passed since begins. -/
theorem exists_textFrom?_after (ops : List CursorOp) :
    c.offset ≤ (c.after ops).offset ∧
      ∃ since, (c.after ops).consumed = c.consumed ++ since ∧
        (c.after ops).textFrom? c.offset = some since := by
  obtain ⟨since, hsince⟩ := c.exists_consumed_after ops
  refine ⟨?_, since, hsince, ?_⟩
  · rw [offset_eq_utf8ByteSize, offset_eq_utf8ByteSize, hsince, String.utf8ByteSize_append]
    exact Nat.le_add_right _ _
  · exact textFrom?_eq_some_iff.mpr ⟨c.consumed, hsince, c.offset_eq_utf8ByteSize.symm⟩

theorem exists_run_skipWhile (p : Char → Bool) :
    ∃ run, (c.skipWhile p).consumed = c.consumed ++ run ∧ (∀ ch ∈ run.toList, p ch = true) ∧
      ∀ ch ∈ (c.skipWhile p).peek?, p ch = false := by
  obtain ⟨run, rest, hrest, hrun, hend⟩ := exists_run p c.rest
  refine ⟨String.ofList run, ?_, ?_, ?_⟩
  · rw [consumed_skipWhile, hrest, takeWhile_run hrun hend]
  · rwa [String.toList_ofList]
  · rwa [peek?, (skipWhile_run hrest hrun hend).1]

theorem run_concat (ops : List CursorOp) (op : CursorOp) :
    c.run (ops ++ [op]) = c.run ops ++ [(op.answer (c.after ops), c.after (ops ++ [op]))] := by
  induction ops generalizing c with
  | nil => rfl
  | cons first ops ih => rw [List.cons_append, run, run, ih, List.cons_append]; rfl

end After

theorem IsIn.isValid {text : String} {c : Cursor} (h : c.IsIn text) :
    String.Pos.Raw.IsValid text ⟨c.offset⟩ := by
  rw [String.Pos.Raw.isValid_iff_exists_append]
  exact ⟨c.consumed, c.ahead, h, by simp [String.Pos.Raw.ext_iff, c.offset_eq_utf8ByteSize]⟩

theorem IsIn.textFrom?_eq_none_iff {text : String} {c : Cursor} (h : c.IsIn text) (start : Nat) :
    c.textFrom? start = none ↔ c.offset < start ∨ ¬ String.Pos.Raw.IsValid text ⟨start⟩ := by
  have hvalid := h.isValid
  rw [← h.slice?_eq, Offset.slice?]
  split
  · next hboth =>
    simp only [reduceCtorEq, false_iff, not_or, not_not]
    exact ⟨by omega, hboth.2.1⟩
  · next hboth =>
    simp only [true_iff]
    by_contra hneither
    simp only [not_or, not_not, Nat.not_lt] at hneither
    exact hboth ⟨hneither.1, hneither.2, hvalid⟩

/-- However a cursor is moved through a text, access by offset is never refused and gives the same
answers, slices that the caller asks for included. The offset of the cursor is the length of what it
passed, which is the front of the text, and so stands between characters and in the text. Nothing is
seen only at the end. A run is passed up to the first character that has no place in it. A slice is
refused exactly if it begins past the cursor or inside a character, so one that begins where the
cursor once was is what was passed since. The slices that scanning takes are of this kind, and
scanning by offset gives a result for every text. -/
theorem stays_between_characters (text : String) :
    (∀ ops, Offset.run? text 0 ops =
      some (((ofText text).run ops).map fun (answer, behind) => (answer, behind.offset))) ∧
    (∀ ops, ∃ c, (ofText text).after ops = c ∧
      (∀ op, (ofText text).run (ops ++ [op]) =
        (ofText text).run ops ++ [(op.answer c, (ofText text).after (ops ++ [op]))]) ∧
      text = c.consumed ++ c.ahead ∧ c.offset = c.consumed.utf8ByteSize ∧
      String.Pos.Raw.IsValid text ⟨c.offset⟩ ∧ c.offset ≤ text.utf8ByteSize ∧
      (c.atEnd = true ↔ text.utf8ByteSize ≤ c.offset) ∧ (c.peek? = none ↔ c.atEnd = true) ∧
      c.advance.consumed = c.consumed ++ c.peek?.elim "" String.singleton ∧
      (∀ p, ∃ run, (c.skipWhile p).consumed = c.consumed ++ run ∧
        (∀ ch ∈ run.toList, p ch = true) ∧ ∀ ch ∈ (c.skipWhile p).peek?, p ch = false) ∧
      (∀ start,
        (c.textFrom? start = none ↔
          c.offset < start ∨ ¬ String.Pos.Raw.IsValid text ⟨start⟩) ∧
        ∀ content, c.textFrom? start = some content ↔
          ∃ front, c.consumed = front ++ content ∧ front.utf8ByteSize = start) ∧
      ∀ more, c.offset ≤ (c.after more).offset ∧
        ∃ since, (c.after more).consumed = c.consumed ++ since ∧
          (c.after more).textFrom? c.offset = some since) ∧
    Offset.scan? text = some (Scan.ofText text) := by
  have hstart := isIn_ofText text
  refine ⟨hstart.run?_eq, ?_, hstart.scanFrom?_eq #[]⟩
  intro ops
  have h := hstart.after ops
  refine ⟨_, rfl, (ofText text).run_concat ops, h, offset_eq_utf8ByteSize _, h.isValid, ?_, ?_, ?_,
    consumed_advance _, exists_run_skipWhile _, ?_, exists_textFrom?_after _⟩
  · rw [h.utf8ByteSize_eq]
    omega
  · rw [← h.atEnd_eq, Offset.atEnd, decide_eq_true_iff]
  · simp [peek?, atEnd]
  · intro start
    exact ⟨h.textFrom?_eq_none_iff start, fun content => textFrom?_eq_some_iff⟩

end Cursor

end CallForms

import CallForms.Proofs.DirectText
import CallForms.Proofs.Reading

/-!
Tokens that can still become a program.

A reader that has come through its tokens can always be brought to an end: by a name where it
awaits one, and by closing the calls that are open. A token that it refuses stays refused whatever
comes behind. So the reader fails at the first token that no program goes on with, and it fails at
the end of the tokens only where more of them could save it.
-/

namespace CallForms

/-- The reader makes a program of the tokens. -/
def Accepted (strict : Bool) (tokens : List Token) : Prop :=
  ∃ program, Program.ofTokens strict tokens = .ok program

/-- Some accepted list begins with the tokens. -/
def Viable (strict : Bool) (tokens : List Token) : Prop :=
  ∃ full, tokens <+: full ∧ Accepted strict full

theorem Accepted.viable {strict : Bool} {tokens : List Token} (h : Accepted strict tokens) :
    Viable strict tokens :=
  ⟨tokens, List.prefix_refl tokens, h⟩

theorem Viable.of_isPrefix {strict : Bool} {front tokens : List Token}
    (h : Viable strict tokens) (hfront : front <+: tokens) : Viable strict front := by
  obtain ⟨full, hfull, haccepted⟩ := h
  exact ⟨full, hfront.trans hfull, haccepted⟩

namespace Reading

/-- The reader comes through the tokens and is in the state `last` behind them. -/
inductive Reaches (strict : Bool) : Reading → List Token → Reading → Prop where
  | nil (r : Reading) : Reaches strict r [] r
  | cons {r next last : Reading} {t : Token} {ts : List Token} :
      Steps strict r t next → Reaches strict next ts last → Reaches strict r (t :: ts) last

section Reaches

variable {strict : Bool} {r last : Reading} {tokens front : List Token} {t : Token}
  {e : ParseError}

theorem Reaches.run_append (h : Reaches strict r tokens last) (rest : List Token) :
    run strict r (tokens ++ rest) = run strict last rest := by
  induction h with
  | nil r => rfl
  | cons hstep _ ih => rw [List.cons_append, hstep.run_cons, ih]

theorem Reaches.run_eq (h : Reaches strict r tokens last) :
    run strict r tokens = ⟨last.names.reverse, last.finish⟩ := by
  have hrun := h.run_append []
  rwa [List.append_nil] at hrun

/-- Nothing behind a refused token is looked at. -/
theorem Reaches.run_refused (h : Reaches strict r front last)
    (hstep : last.step strict t = .error e) (behind : List Token) :
    run strict r (front ++ t :: behind) = ⟨last.names.reverse, .error e⟩ := by
  rw [h.run_append, run, hstep]

theorem Reaches.ofTokens_eq (h : Reaches strict {} tokens last) :
    Program.ofTokens strict tokens = last.finish := by
  rw [Program.ofTokens, Program.parse, h.run_eq]

theorem Reaches.ofTokens_refused (h : Reaches strict {} front last)
    (hstep : last.step strict t = .error e) (behind : List Token) :
    Program.ofTokens strict (front ++ t :: behind) = .error e := by
  rw [Program.ofTokens, Program.parse, h.run_refused hstep]

/-- A reader comes through all the tokens, or through those in front of one that it refuses. -/
theorem reaches_or_refuses (strict : Bool) (r : Reading) (tokens : List Token) :
    (∃ last, Reaches strict r tokens last) ∨
      ∃ front t behind last e, tokens = front ++ t :: behind ∧ Reaches strict r front last ∧
        last.step strict t = .error e := by
  induction tokens generalizing r with
  | nil => exact .inl ⟨r, .nil r⟩
  | cons t tokens ih =>
      cases hstep : r.step strict t with
      | error e => exact .inr ⟨[], t, tokens, r, e, rfl, .nil r, hstep⟩
      | ok next =>
          have hsteps := step_eq_ok_iff.mp hstep
          rcases ih next with ⟨last, hlast⟩ | ⟨front, u, behind, last, e, rfl, hfront, hrefused⟩
          · exact .inl ⟨last, .cons hsteps hlast⟩
          · exact .inr ⟨t :: front, u, behind, last, e, rfl, .cons hsteps hfront, hrefused⟩

/-- An error at a token names the token. -/
theorem eq_of_step_eq_error (h : r.step strict t = .error e) :
    e = .unexpectedToken t "literal or call" ∨ e = .invalidCallee t := by
  unfold step at h
  split at h
  · split at h
    · cases h
      exact .inr rfl
    · cases h
  · split at h
    · cases h
    · cases h
    all_goals
      split at h
      · cases h
      · split at h
        · cases h
        · cases h
          exact .inl rfl

theorem finish_eq_ok_or_unexpectedEnd (r : Reading) :
    (∃ program, r.finish = .ok program) ∨
      ∃ expected, r.finish = .error (.unexpectedEnd expected) := by
  unfold finish
  split
  · exact .inr ⟨_, rfl⟩
  · split
    · exact .inl ⟨_, rfl⟩
    · exact .inr ⟨_, rfl⟩

/-- Tokens that bring the reader to an end: a call for the name that it awaits, and what closes the
open calls. -/
def closing (r : Reading) : List Token :=
  (if r.awaitsName then [⟨.name, "f"⟩, .closeParen] else []) ++
    .replicate r.openCalls.length .closeParen

theorem exists_run_replicate_close (strict : Bool) (r : Reading) (hready : r.awaitsName = false) :
    ∃ program, (run strict r (.replicate r.openCalls.length .closeParen)).result = .ok program := by
  generalize hcalls : r.openCalls = calls
  induction calls generalizing r with
  | nil => exact ⟨⟨r.level.reverse⟩, by simp [run, finish, hready, hcalls]⟩
  | cons call outer ih =>
      rw [List.length_cons, List.replicate_succ, (Steps.closeCall hready hcalls).run_cons]
      exact ih _ hready rfl

theorem exists_run_closing (strict : Bool) (r : Reading) :
    ∃ program, (run strict r r.closing).result = .ok program := by
  cases hawaits : r.awaitsName with
  | false => simpa [closing, hawaits] using exists_run_replicate_close strict r hawaits
  | true =>
      have hname : Steps strict r ⟨.name, "f"⟩ (r.enterCall ⟨.name, "f"⟩) :=
        .name hawaits fun _ => rfl
      have hclose : Steps strict (r.enterCall ⟨.name, "f"⟩) .closeParen _ := .closeCall rfl rfl
      simp only [closing, hawaits, if_true, List.cons_append, List.nil_append]
      rw [hname.run_cons, hclose.run_cons]
      exact exists_run_replicate_close strict _ rfl

theorem Reaches.accepted_append_closing (h : Reaches strict {} tokens last) :
    Accepted strict (tokens ++ last.closing) := by
  obtain ⟨program, hprogram⟩ := exists_run_closing strict last
  exact ⟨program, by rw [Program.ofTokens, Program.parse, h.run_append, hprogram]⟩

theorem Reaches.not_viable_concat (h : Reaches strict {} front last)
    (hstep : last.step strict t = .error e) : ¬ Viable strict (front ++ [t]) := by
  rintro ⟨full, ⟨behind, rfl⟩, program, hprogram⟩
  rw [List.append_assoc, List.singleton_append, h.ofTokens_refused hstep] at hprogram
  cases hprogram

end Reaches

end Reading

theorem viable_iff_reaches {strict : Bool} {tokens : List Token} :
    Viable strict tokens ↔ ∃ last, Reading.Reaches strict {} tokens last := by
  constructor
  · intro hviable
    rcases Reading.reaches_or_refuses strict {} tokens with
      hreaches | ⟨front, t, behind, last, e, rfl, hfront, hstep⟩
    · exact hreaches
    · have hconcat : front ++ [t] <+: front ++ t :: behind := ⟨behind, by simp⟩
      exact absurd (hviable.of_isPrefix hconcat) (hfront.not_viable_concat hstep)
  · rintro ⟨last, hreaches⟩
    exact ⟨tokens ++ last.closing, List.prefix_append _ _, hreaches.accepted_append_closing⟩

/-- Tokens that are viable are read, or there are only too few of them. -/
theorem viable_iff_ofTokens {strict : Bool} {tokens : List Token} :
    Viable strict tokens ↔
      Accepted strict tokens ∨
        ∃ expected, Program.ofTokens strict tokens = .error (.unexpectedEnd expected) := by
  constructor
  · intro hviable
    obtain ⟨last, hlast⟩ := viable_iff_reaches.mp hviable
    rw [Accepted, hlast.ofTokens_eq]
    exact last.finish_eq_ok_or_unexpectedEnd
  · rintro (haccepted | ⟨expected, hend⟩)
    · exact haccepted.viable
    · rcases Reading.reaches_or_refuses strict {} tokens with
        hreaches | ⟨front, t, behind, last, e, rfl, hfront, hstep⟩
      · exact viable_iff_reaches.mpr hreaches
      · rw [hfront.ofTokens_refused hstep] at hend
        rcases Reading.eq_of_step_eq_error hstep with rfl | rfl <;> cases hend

theorem exists_compile_eq_ok_iff {config : Config} {text : String} :
    (∃ output, compile config text = .ok output) ↔
      ∃ tokens, Token.ofText text = .ok tokens ∧ Accepted config.strictCallee tokens := by
  simp only [compile_eq_ok_iff, ReadsAs, Accepted]
  constructor
  · rintro ⟨_, program, ⟨tokens, hscan, hread⟩, _⟩
    exact ⟨tokens, hscan, program, hread⟩
  · rintro ⟨tokens, hscan, program, hread⟩
    exact ⟨_, program, ⟨tokens, hscan, hread⟩, rfl⟩

/-- Viable tokens show in what their text compiles to. -/
theorem viable_iff_compile {config : Config} {text : String} {tokens : List Token}
    (hscan : Token.ofText text = .ok tokens) :
    Viable config.strictCallee tokens ↔
      (∃ output, compile config text = .ok output) ∨
        ∃ expected, compile config text = .error (.parse (.unexpectedEnd expected)) := by
  simp [viable_iff_ofTokens, exists_compile_eq_ok_iff, compile_eq_parse_error_iff, hscan]

/-- Reading fails at the end of the tokens exactly where some accepted list begins with them.
Otherwise it fails at the first token up to which no accepted list goes, and names it. -/
theorem Program.ofTokens_fails_at_first_unviable (strict : Bool) (tokens : List Token)
    (hfails : ¬ Accepted strict tokens) :
    ((∃ expected, Program.ofTokens strict tokens = .error (.unexpectedEnd expected)) ↔
      Viable strict tokens) ∧
    (¬ Viable strict tokens →
      ∃ k found, tokens[k]? = some found ∧
        ((∃ expected, Program.ofTokens strict tokens = .error (.unexpectedToken found expected)) ∨
          Program.ofTokens strict tokens = .error (.invalidCallee found)) ∧
        ¬ Viable strict (tokens.take (k + 1)) ∧
        ∀ j < k, Viable strict (tokens.take (j + 1))) := by
  refine ⟨?_, ?_⟩
  · rw [viable_iff_ofTokens]
    exact ⟨.inr, fun h => h.resolve_left hfails⟩
  · intro hunviable
    rcases Reading.reaches_or_refuses strict {} tokens with
      hreaches | ⟨front, t, behind, last, e, rfl, hfront, hstep⟩
    · exact absurd (viable_iff_reaches.mpr hreaches) hunviable
    have hresult := hfront.ofTokens_refused hstep behind
    refine ⟨front.length, t, by simp, ?_, ?_, ?_⟩
    · rcases Reading.eq_of_step_eq_error hstep with rfl | rfl
      · exact .inl ⟨_, hresult⟩
      · exact .inr hresult
    · have htake : (front ++ t :: behind).take (front.length + 1) = front ++ [t] := by
        rw [List.take_length_add_append, List.take_succ_cons, List.take_zero]
      rw [htake]
      exact hfront.not_viable_concat hstep
    · intro j hj
      have htake : (front ++ t :: behind).take (j + 1) = front.take (j + 1) :=
        List.take_append_of_le_length hj
      rw [htake]
      exact (viable_iff_reaches.mpr ⟨last, hfront⟩).of_isPrefix (List.take_prefix _ _)

/-- In strict mode `(f (` only lacks its end, and `1` behind it is the first impossible token. -/
theorem Program.ofTokens_fails_at_first_unviable_number :
    ¬ Accepted true [.openParen, ⟨.name, "f"⟩, .openParen, ⟨.number, "1"⟩, .closeParen] ∧
      ¬ Viable true [.openParen, ⟨.name, "f"⟩, .openParen, ⟨.number, "1"⟩] ∧
      Viable true [.openParen, ⟨.name, "f"⟩, .openParen] := by
  let tokens : List Token :=
    [.openParen, ⟨.name, "f"⟩, .openParen, ⟨.number, "1"⟩, .closeParen]
  have hresult : Program.ofTokens true tokens = .error (.invalidCallee ⟨.number, "1"⟩) := rfl
  have hfails : ¬ Accepted true tokens := by
    simp [Accepted, hresult]
  obtain ⟨hend, hfirst⟩ := Program.ofTokens_fails_at_first_unviable true tokens hfails
  have hunviable : ¬ Viable true tokens := by
    simp [← hend, hresult]
  obtain ⟨k, found, hfound, herror, hstop, hbefore⟩ := hfirst hunviable
  have hnumber : found = ⟨.number, "1"⟩ := by
    simpa [hresult, eq_comm] using herror
  have hk : k = 3 := by
    subst hnumber
    match k with
    | 0 | 1 | 2 | 4 => simp [tokens, Token.openParen, Token.closeParen] at hfound
    | 3 => rfl
    | k + 5 => simp [tokens] at hfound
  subst hk
  exact ⟨hfails, hstop, hbefore 2 (by decide)⟩

end CallForms

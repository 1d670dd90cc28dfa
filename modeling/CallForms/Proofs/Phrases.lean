import CallForms.Form.Phrase
import CallForms.Proofs.Counting
import CallForms.Proofs.Reading

/-!
Reading by recursion, by a stack and by a counter come to the same.

What the recursion reads off derives the phrase that it gives, so the reader that keeps its open
calls on a stack goes through it with the same result. Where the recursion fails, that reader comes
to the same place and fails there alike: on the way it has as many calls open as the recursion has
called for. The counter keeps no more than their number.
-/

namespace CallForms

namespace Phrase

variable {strict : Bool}

mutual

theorem derives_of_form {tokens : List Token} {phrase : Phrase Form tokens}
    (h : form strict tokens = .ok phrase) :
    ∃ front, tokens = front ++ phrase.rest ∧ Derives strict front phrase.value := by
  match tokens, phrase, h with
  | [], _, h =>
      rw [form] at h
      cases h
  | ⟨kind, value⟩ :: ts, _, h =>
      rw [form] at h
      split at h
      · next hkind =>
        cases h
        cases hkind
        exact ⟨[⟨.number, value⟩], rfl, .number value⟩
      · next hkind =>
        cases h
        cases hkind
        exact ⟨[⟨.string, value⟩], rfl, .string value⟩
      all_goals
        split at h
        · next hopen =>
          split at h
          · cases h
          · next inner hinner =>
            cases h
            rw [eq_of_beq hopen]
            exact derives_of_call hinner
        · cases h
termination_by (tokens.length, 0)

theorem derives_of_call {tokens : List Token} {phrase : Phrase Form tokens}
    (h : call strict tokens = .ok phrase) :
    ∃ front, .openParen :: tokens = front ++ phrase.rest ∧ Derives strict front phrase.value := by
  match tokens, phrase, h with
  | [], _, h =>
      rw [call] at h
      cases h
  | name :: ts, _, h =>
      rw [call] at h
      split at h
      · cases h
      · next hname =>
        split at h
        · cases h
        · next inner hinner =>
          cases h
          obtain ⟨front, hts, hfront⟩ := derivesAll_of_params hinner
          refine ⟨.openParen :: name :: (front ++ [.closeParen]), by simpa using hts, ?_⟩
          exact .call (by simpa using hname) hfront
termination_by (tokens.length, 0)

theorem derivesAll_of_params {tokens : List Token} {phrase : Phrase (List Form) tokens}
    (h : params strict tokens = .ok phrase) :
    ∃ front, tokens = front ++ .closeParen :: phrase.rest ∧
      DerivesAll strict front phrase.value := by
  match tokens, phrase, h with
  | [], _, h =>
      rw [params] at h
      cases h
  | t :: ts, _, h =>
      rw [params] at h
      split at h
      · next hclose =>
        cases h
        exact ⟨[], by rw [eq_of_beq hclose]; rfl, .nil⟩
      · split at h
        · cases h
        · next first hfirst =>
          split at h
          · cases h
          · next more hmore =>
            cases h
            have hshorter := first.length_rest_lt
            obtain ⟨front, hfront, hform⟩ := derives_of_form hfirst
            obtain ⟨inner, hinner, hforms⟩ := derivesAll_of_params hmore
            refine ⟨front ++ inner, hfront.trans ?_, .cons hform hforms⟩
            simpa using hinner
termination_by (tokens.length, 1)

end

theorem derivesAll_of_forms {tokens : List Token} {read : List Form}
    (h : forms strict tokens = .ok read) : DerivesAll strict tokens read := by
  match tokens, h with
  | [], h =>
      rw [forms] at h
      cases h
      exact .nil
  | t :: ts, h =>
      rw [forms] at h
      split at h
      · cases h
      · next first hfirst =>
        split at h
        · cases h
        · next more hmore =>
          cases h
          have hshorter := first.length_rest_lt
          obtain ⟨front, hfront, hform⟩ := derives_of_form hfirst
          have hall := DerivesAll.cons hform (derivesAll_of_forms hmore)
          rwa [← hfront] at hall
termination_by tokens.length
decreasing_by exact hshorter

mutual

/-- A closing parenthesis is no form, but a reader with a call open would not ask for one there. -/
theorem run_eq_error_of_form {t : Token} {ts : List Token} {e : ParseError}
    (h : form strict (t :: ts) = .error e) (r : Reading) (hready : r.awaitsName = false)
    (hclose : t.isClose = true → r.openCalls = []) :
    (r.run strict (t :: ts)).result = .error e := by
  rw [form] at h
  split at h
  · cases h
  · cases h
  all_goals
    next hkind =>
    split at h
    · next hopen =>
      split at h
      · next error hinner =>
        cases h
        have hstep : Reading.Steps strict r .openParen { r with awaitsName := true } :=
          .openCall hready
        rw [eq_of_beq hopen, hstep.run_cons]
        exact run_eq_error_of_call hinner _ rfl
      · cases h
    · next hopen =>
      cases h
      have hrefused : r.step strict t = .error (.unexpectedToken t "literal or call") := by
        cases hclosing : t.isClose <;> simp_all [Reading.step]
      rw [Reading.run, hrefused]
termination_by (ts.length + 1, 0)

theorem run_eq_error_of_call {tokens : List Token} {e : ParseError}
    (h : call strict tokens = .error e) (r : Reading) (hawaits : r.awaitsName = true) :
    (r.run strict tokens).result = .error e := by
  match tokens, h with
  | [], h =>
      rw [call] at h
      cases h
      simp [Reading.run, Reading.finish, hawaits]
  | name :: ts, h =>
      rw [call] at h
      split at h
      · next hname =>
        cases h
        have hrefused : r.step strict name = .error (.invalidCallee name) := by
          simp [Reading.step, hawaits, hname]
        rw [Reading.run, hrefused]
      · next hname =>
        split at h
        · next error hinner =>
          cases h
          have hstep : Reading.Steps strict r name (r.enterCall name) :=
            .name hawaits (by simpa using hname)
          rw [hstep.run_cons]
          exact run_eq_error_of_params hinner _ rfl (by simp [Reading.enterCall])
        · cases h
termination_by (tokens.length, 0)

theorem run_eq_error_of_params {tokens : List Token} {e : ParseError}
    (h : params strict tokens = .error e) (r : Reading) (hready : r.awaitsName = false)
    (hopen : r.openCalls ≠ []) :
    (r.run strict tokens).result = .error e := by
  match tokens, h with
  | [], h =>
      rw [params] at h
      cases h
      cases hcalls : r.openCalls with
      | nil => exact absurd hcalls hopen
      | cons call outer => simp [Reading.run, Reading.finish, hready, hcalls]
  | t :: ts, h =>
      rw [params] at h
      split at h
      · cases h
      · next hclose =>
        split at h
        · next error hfirst =>
          cases h
          exact run_eq_error_of_form hfirst r hready fun hclosing => absurd hclosing hclose
        · next first hfirst =>
          split at h
          · next error hmore =>
            cases h
            have hshorter := first.length_rest_lt
            obtain ⟨front, hfront, hform⟩ := derives_of_form hfirst
            rw [hfront, hform.run_append r _ hready]
            exact run_eq_error_of_params hmore (r.after [first.value]) hready hopen
          · cases h
termination_by (tokens.length, 1)

end

theorem run_eq_error_of_forms {tokens : List Token} {e : ParseError}
    (h : forms strict tokens = .error e) (r : Reading) (hready : r.awaitsName = false)
    (hcalls : r.openCalls = []) : (r.run strict tokens).result = .error e := by
  match tokens, h with
  | [], h =>
      rw [forms] at h
      cases h
  | t :: ts, h =>
      rw [forms] at h
      split at h
      · next error hfirst =>
        cases h
        exact run_eq_error_of_form hfirst r hready fun _ => hcalls
      · next first hfirst =>
        split at h
        · next error hmore =>
          cases h
          have hshorter := first.length_rest_lt
          obtain ⟨front, hfront, hform⟩ := derives_of_form hfirst
          rw [hfront, hform.run_append r _ hready]
          exact run_eq_error_of_forms hmore (r.after [first.value]) hready hcalls
        · cases h
termination_by tokens.length
decreasing_by exact hshorter

end Phrase

/-- The recursion reads the same program, or fails with the same error. -/
theorem Program.ofTokens_eq_ofPhrases (strict : Bool) (tokens : List Token) :
    Program.ofTokens strict tokens = Program.ofPhrases strict tokens := by
  rw [ofPhrases]
  cases hforms : Phrase.forms strict tokens with
  | ok forms => exact (Phrase.derivesAll_of_forms hforms).ofTokens_eq
  | error e => exact Phrase.run_eq_error_of_forms hforms {} rfl rfl

namespace Counter

theorem step_ne_unexpectedEnd (strict : Bool) (c : Counter) (t : Token) (expected : String) :
    c.step strict t ≠ .error (.unexpectedEnd expected) := by
  unfold step
  repeat' split
  all_goals simp

theorem finish_ne_literalOrCall (c : Counter) :
    c.finish ≠ .error (.unexpectedEnd "literal or call") := by
  unfold finish
  repeat' split
  all_goals simp

/-- Tokens never end where a form is asked for. -/
theorem run_ne_literalOrCall (strict : Bool) (c : Counter) (tokens : List Token) :
    c.run strict tokens ≠ .error (.unexpectedEnd "literal or call") := by
  induction tokens generalizing c with
  | nil => exact c.finish_ne_literalOrCall
  | cons t tokens ih =>
      have hstep := c.step_ne_unexpectedEnd strict t "literal or call"
      rw [run]
      cases hnext : c.step strict t with
      | ok next => exact ih next
      | error e =>
          rw [hnext] at hstep
          simpa using hstep

end Counter

/-- Reading refines counting. Recursion over the phrases, with all its open calls, and one pass over
the tokens that keeps only how many calls are open and whether the last one lacks its name, succeed
on the same tokens and otherwise fail with the same error. None of them fails for want of a literal
or a call at the end of the tokens. -/
theorem Program.ofTokens_refines_counter (strict : Bool) (tokens : List Token) :
    Program.ofTokens strict tokens = Program.ofPhrases strict tokens ∧
    ((∃ program, Program.ofTokens strict tokens = .ok program) ↔
      Counter.run strict {} tokens = .ok ()) ∧
    (∀ e, Program.ofTokens strict tokens = .error e ↔ Counter.run strict {} tokens = .error e) ∧
    Program.ofTokens strict tokens ≠ .error (.unexpectedEnd "literal or call") := by
  have hmap := Program.map_ofTokens strict tokens
  have hnever := Counter.run_ne_literalOrCall strict {} tokens
  refine ⟨Program.ofTokens_eq_ofPhrases strict tokens, ?_⟩
  rw [← hmap] at hnever ⊢
  cases hread : Program.ofTokens strict tokens with
  | ok program => simp [Except.map]
  | error e => simpa [hread, Except.map] using hnever

end CallForms

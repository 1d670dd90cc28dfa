import CallForms.Form.Counter

/-!
The counter decides what the reader decides.

A step of the reader is a step of the counter once the forms are forgotten. So the two stop at the
same token with the same error, and whatever readers have read before, they judge the tokens to
come alike as long as they have equally many calls open.
-/

namespace CallForms

namespace Reading

/-- What a counter keeps of a reader. A call that still lacks its name is open, too. -/
def counter (r : Reading) : Counter where
  depth := r.openCalls.length + (if r.awaitsName then 1 else 0)
  awaitsName := r.awaitsName

theorem map_counter_step (strict : Bool) (r : Reading) (t : Token) :
    (r.step strict t).map counter = r.counter.step strict t := by
  cases hawaits : r.awaitsName with
  | true =>
      by_cases hname : (strict && t.kind != .name) = true
      · simp [step, Counter.step, counter, hawaits, hname, Except.map]
      · simp [step, Counter.step, counter, enterCall, hawaits, hname, Except.map]
  | false =>
      obtain ⟨kind, value⟩ := t
      cases kind with
      | number => simp [step, Counter.step, counter, push, hawaits, Except.map]
      | string => simp [step, Counter.step, counter, push, hawaits, Except.map]
      | name =>
          simp [step, Counter.step, counter, hawaits, Except.map, Token.isOpen, Token.isClose,
            Token.openParen, Token.closeParen]
      | paren =>
          by_cases hopen : value = "("
          · simp [step, Counter.step, counter, hawaits, Except.map, Token.isOpen, Token.openParen,
              hopen]
          by_cases hclose : value = ")"
          · cases hcalls : r.openCalls <;>
              simp [step, Counter.step, counter, hawaits, hcalls, Except.map, Token.isOpen,
                Token.isClose, Token.openParen, Token.closeParen, hclose]
          · simp [step, Counter.step, counter, hawaits, Except.map, Token.isOpen, Token.isClose,
              Token.openParen, Token.closeParen, hopen, hclose]

theorem map_finish (r : Reading) : r.finish.map (fun _ => ()) = r.counter.finish := by
  cases hawaits : r.awaitsName with
  | true => simp [finish, Counter.finish, counter, hawaits, Except.map]
  | false =>
      cases hcalls : r.openCalls <;>
        simp [finish, Counter.finish, counter, hawaits, hcalls, Except.map]

/-- A reader succeeds or fails as its counter does. -/
theorem map_result_run (strict : Bool) (r : Reading) (tokens : List Token) :
    (r.run strict tokens).result.map (fun _ => ()) = r.counter.run strict tokens := by
  induction tokens generalizing r with
  | nil => exact r.map_finish
  | cons t tokens ih =>
      have hstep := map_counter_step strict r t
      rw [run, Counter.run, ← hstep]
      cases r.step strict t with
      | error e => rfl
      | ok next => exact ih next

/-- An error depends on the counter alone. -/
theorem result_run_eq_error_iff {strict : Bool} {r s : Reading} (h : r.counter = s.counter)
    (tokens : List Token) (e : ParseError) :
    (r.run strict tokens).result = .error e ↔ (s.run strict tokens).result = .error e := by
  have hforget (p : Except ParseError Program) :
      p = .error e ↔ p.map (fun _ => ()) = .error e := by
    cases p <;> simp [Except.map]
  rw [hforget, hforget, map_result_run, map_result_run, h]

end Reading

theorem Program.map_ofTokens (strict : Bool) (tokens : List Token) :
    (Program.ofTokens strict tokens).map (fun _ => ()) = Counter.run strict {} tokens :=
  Reading.map_result_run strict {} tokens

end CallForms

import CallForms.Form.CallText
import CallForms.Form.Reading
import CallForms.Token.Spelling

/-!
The reader accepts exactly the grammar.

From left to right this is a run lemma: reading the tokens of a form puts that form on the current
level and leaves all else as it was. From right to left an invariant says which tokens the reader
must have gone through to be in its present state, calls that are still open included.
-/

namespace CallForms

namespace Reading

/-- The reader goes on with `next` after the token. -/
inductive Steps (strict : Bool) (r : Reading) : Token → Reading → Prop where
  | name {t : Token} :
      r.awaitsName = true → (strict = true → t.kind = .name) → Steps strict r t (r.enterCall t)
  | number (value : String) :
      r.awaitsName = false → Steps strict r ⟨.number, value⟩ (r.push (.number value))
  | string (value : String) :
      r.awaitsName = false → Steps strict r ⟨.string, value⟩ (r.push (.string value))
  | openCall :
      r.awaitsName = false → Steps strict r .openParen { r with awaitsName := true }
  | closeCall {call : OpenCall} {outer : List OpenCall} :
      r.awaitsName = false → r.openCalls = call :: outer →
      Steps strict r .closeParen
        { r with level := .call call.name r.level.reverse :: call.before, openCalls := outer }

theorem step_eq_ok_iff {strict : Bool} {r next : Reading} {t : Token} :
    r.step strict t = .ok next ↔ Steps strict r t next := by
  constructor
  · intro h
    unfold step at h
    split at h
    · next hawaits =>
      split at h
      · cases h
      · next hname =>
        cases h
        exact .name hawaits (by simpa using hname)
    · next hawaits =>
      have hready : r.awaitsName = false := by simpa using hawaits
      obtain ⟨kind, value⟩ := t
      split at h
      · next hkind =>
        cases h
        cases hkind
        exact .number value hready
      · next hkind =>
        cases h
        cases hkind
        exact .string value hready
      all_goals
        split at h
        · next hopen =>
          cases h
          rw [eq_of_beq hopen]
          exact .openCall hready
        · split at h
          · next hclose hcalls =>
            cases h
            rw [eq_of_beq hclose]
            exact .closeCall hready hcalls
          · cases h
  · intro h
    cases h with
    | name hawaits hname => simpa [step, hawaits] using hname
    | number value hready => simp [step, hready]
    | string value hready => simp [step, hready]
    | openCall hready => simp [step, hready, Token.isOpen, Token.openParen]
    | closeCall hready hcalls =>
        simp [step, hready, hcalls, Token.isOpen, Token.isClose, Token.openParen,
          Token.closeParen]

theorem Steps.run_cons {strict : Bool} {r next : Reading} {t : Token}
    (h : Steps strict r t next) (ts : List Token) :
    run strict r (t :: ts) = run strict next ts := by
  rw [run, step_eq_ok_iff.mpr h]

/-- The state after reading forms at the current level. -/
def after (r : Reading) (forms : List Form) : Reading :=
  { r with
    level := forms.reverse ++ r.level
    names := (Form.callNamesAll forms).reverse ++ r.names }

end Reading

mutual

/-- Reading the tokens of a form adds the form to the current level. -/
theorem Derives.run_append {strict : Bool} {tokens : List Token} {form : Form} :
    Derives strict tokens form → ∀ (r : Reading) (rest : List Token), r.awaitsName = false →
      Reading.run strict r (tokens ++ rest) = Reading.run strict (r.after [form]) rest
  | .number value, r, rest, hready => (Reading.Steps.number value hready).run_cons rest
  | .string value, r, rest, hready => (Reading.Steps.string value hready).run_cons rest
  | @Derives.call _ name tokens params hname hparams, r, rest, hready => by
      let opened : Reading := { r with awaitsName := true }
      let filled : Reading := (opened.enterCall name).after params
      have hopen : Reading.Steps strict r .openParen opened := .openCall hready
      have hcalled : Reading.Steps strict opened name (opened.enterCall name) := .name rfl hname
      have hclose :
          Reading.Steps strict filled .closeParen (r.after [.call name.value params]) := by
        have hcalls : filled.openCalls = ⟨name.value, r.level⟩ :: r.openCalls := rfl
        have h : Reading.Steps strict filled .closeParen _ := .closeCall rfl hcalls
        simpa [filled, opened, Reading.after, Reading.enterCall, Form.callNamesAll,
          Form.callNames, hready] using h
      have hinner := hparams.run_append (opened.enterCall name) (.closeParen :: rest) rfl
      calc Reading.run strict r (.openParen :: name :: (tokens ++ [.closeParen]) ++ rest)
          = Reading.run strict (opened.enterCall name) (tokens ++ .closeParen :: rest) := by
            rw [List.cons_append, hopen.run_cons, List.cons_append, hcalled.run_cons]
            simp
        _ = Reading.run strict filled (.closeParen :: rest) := hinner
        _ = Reading.run strict (r.after [.call name.value params]) rest := hclose.run_cons rest

theorem DerivesAll.run_append {strict : Bool} {tokens : List Token} {forms : List Form} :
    DerivesAll strict tokens forms → ∀ (r : Reading) (rest : List Token), r.awaitsName = false →
      Reading.run strict r (tokens ++ rest) = Reading.run strict (r.after forms) rest
  | .nil, r, rest, _ => by simp [Reading.after, Form.callNamesAll]
  | @DerivesAll.cons _ _ _ form _ hform hforms, r, rest, hready => by
      rw [List.append_assoc, hform.run_append r _ hready,
        hforms.run_append (r.after [form]) rest hready]
      simp [Reading.after, Form.callNamesAll]

end

/-- Tokens derive the forms of every level that is still open, the current level last. -/
inductive DerivesOpen (strict : Bool) : List Token → List OpenCall → List Form → Prop where
  | body {tokens : List Token} {level : List Form} :
      DerivesAll strict tokens level.reverse → DerivesOpen strict tokens [] level
  | call {tokens inner : List Token} {name : Token} {outer : List OpenCall}
      {before level : List Form} :
      DerivesOpen strict tokens outer before → (strict = true → name.kind = .name) →
      DerivesAll strict inner level.reverse →
      DerivesOpen strict (tokens ++ .openParen :: name :: inner) (⟨name.value, before⟩ :: outer)
        level

theorem DerivesAll.concat {strict : Bool} {tokens last : List Token} {forms : List Form}
    {form : Form} (hforms : DerivesAll strict tokens forms) (hform : Derives strict last form) :
    DerivesAll strict (tokens ++ last) (forms ++ [form]) := by
  induction forms generalizing tokens with
  | nil =>
      cases hforms
      simpa using DerivesAll.cons hform .nil
  | cons first forms ih =>
      cases hforms with
      | cons hfirst hrest =>
          rw [List.append_assoc]
          exact .cons hfirst (ih hrest)

/-- One more form at the current level. -/
theorem DerivesOpen.push {strict : Bool} {tokens last : List Token} {calls : List OpenCall}
    {level : List Form} {form : Form} (h : DerivesOpen strict tokens calls level)
    (hform : Derives strict last form) :
    DerivesOpen strict (tokens ++ last) calls (form :: level) := by
  cases h with
  | body hlevel =>
      refine .body ?_
      simpa using hlevel.concat hform
  | @call tokens inner name outer before _ houter hname hlevel =>
      have hinner : DerivesAll strict (inner ++ last) (form :: level).reverse := by
        simpa using hlevel.concat hform
      simpa using DerivesOpen.call houter hname hinner

/-- Closing the innermost call makes it a form of the level around it. -/
theorem DerivesOpen.close {strict : Bool} {tokens : List Token} {call : OpenCall}
    {outer : List OpenCall} {level : List Form}
    (h : DerivesOpen strict tokens (call :: outer) level) :
    DerivesOpen strict (tokens ++ [.closeParen]) outer
      (.call call.name level.reverse :: call.before) := by
  cases h with
  | call houter hname hlevel =>
      simpa using houter.push (Derives.call hname hlevel)

namespace Reading

/-- Going through the tokens leaves the reader in this state. -/
def Reads (strict : Bool) (tokens : List Token) (r : Reading) : Prop :=
  ∃ before, tokens = before ++ (if r.awaitsName then [.openParen] else []) ∧
    DerivesOpen strict before r.openCalls r.level

/-- What has been gone through is kept up by one step. -/
theorem Reads.step {strict : Bool} {tokens : List Token} {r next : Reading} {t : Token}
    (h : Reads strict tokens r) (hstep : Steps strict r t next) :
    Reads strict (tokens ++ [t]) next := by
  obtain ⟨before, rfl, hopen⟩ := h
  cases hstep with
  | name hawaits hname =>
      refine ⟨before ++ [.openParen, t], by simp [hawaits, enterCall], ?_⟩
      exact .call hopen hname .nil
  | number value hready =>
      refine ⟨before ++ [⟨.number, value⟩], by simp [hready, push], ?_⟩
      exact hopen.push (.number value)
  | string value hready =>
      refine ⟨before ++ [⟨.string, value⟩], by simp [hready, push], ?_⟩
      exact hopen.push (.string value)
  | openCall hready => exact ⟨before, by simp [hready], hopen⟩
  | closeCall hready hcalls =>
      refine ⟨before ++ [.closeParen], by simp [hready], ?_⟩
      rw [hcalls] at hopen
      exact hopen.close

/-- If the rest of the tokens is read to the end, all the tokens derive the program. -/
theorem Reads.run {strict : Bool} {rest : List Token} {program : Program} :
    ∀ {tokens : List Token} {r : Reading}, Reads strict tokens r →
      (r.run strict rest).result = .ok program →
        DerivesAll strict (tokens ++ rest) program.body := by
  induction rest with
  | nil =>
      intro tokens r h hrun
      obtain ⟨before, rfl, hopen⟩ := h
      simp only [Reading.run, finish] at hrun
      split at hrun
      · cases hrun
      · next hready =>
        split at hrun
        · next hcalls =>
          cases hrun
          rw [hcalls] at hopen
          cases hopen with
          | body hlevel => simpa [hready] using hlevel
        · cases hrun
  | cons t rest ih =>
      intro tokens r h hrun
      rw [Reading.run] at hrun
      split at hrun
      · next next hstep =>
        have hnext := h.step (step_eq_ok_iff.mp hstep)
        simpa using ih hnext hrun
      · cases hrun

end Reading

theorem Program.derivesAll_of_ofTokens {strict : Bool} {tokens : List Token} {program : Program}
    (h : Program.ofTokens strict tokens = .ok program) :
    DerivesAll strict tokens program.body := by
  have hstart : Reading.Reads strict [] {} := ⟨[], rfl, .body .nil⟩
  simpa using hstart.run h

theorem DerivesAll.ofTokens_eq {strict : Bool} {tokens : List Token} {forms : List Form}
    (h : DerivesAll strict tokens forms) : Program.ofTokens strict tokens = .ok ⟨forms⟩ := by
  have hrun := h.run_append {} [] rfl
  rw [List.append_nil] at hrun
  simp [Program.ofTokens, Program.parse, hrun, Reading.run, Reading.finish, Reading.after]

/-- The payloads of the form are those of tokens of a text, and names name its calls. -/
inductive Form.WellFormed : Form → Prop where
  | number {value : String} : Token.WellFormed ⟨.number, value⟩ → WellFormed (number value)
  | string {value : String} : Token.WellFormed ⟨.string, value⟩ → WellFormed (string value)
  | call {name : String} {params : List Form} :
      Token.WellFormed ⟨.name, name⟩ → (∀ param ∈ params, WellFormed param) →
      WellFormed (call name params)

mutual

theorem Derives.wellFormed {tokens : List Token} {form : Form} :
    Derives true tokens form → (∀ t ∈ tokens, t.WellFormed) → form.WellFormed
  | .number value, ht => .number (ht _ (by simp))
  | .string value, ht => .string (ht _ (by simp))
  | @Derives.call _ ⟨kind, value⟩ tokens params hname hparams, ht => by
      cases (hname rfl : kind = .name)
      refine .call (ht _ (by simp)) (hparams.wellFormed ?_)
      intro t hmem
      exact ht t (by simp [hmem])

/-- In strict mode well-formed tokens give well-formed forms. -/
theorem DerivesAll.wellFormed {tokens : List Token} {forms : List Form} :
    DerivesAll true tokens forms → (∀ t ∈ tokens, t.WellFormed) → ∀ form ∈ forms, form.WellFormed
  | .nil, _ => by simp
  | .cons hform hforms, ht => by
      rw [List.forall_mem_append] at ht
      rw [List.forall_mem_cons]
      exact ⟨hform.wellFormed ht.1, hforms.wellFormed ht.2⟩

end

/-- Reading succeeds exactly on the token lists that derive a program, and gives that program, in
either mode and for any payloads. -/
theorem Program.ofTokens_eq_ok_iff_derivesAll (strict : Bool) (tokens : List Token)
    (program : Program) :
    Program.ofTokens strict tokens = .ok program ↔ DerivesAll strict tokens program.body := by
  constructor
  · intro h
    exact derivesAll_of_ofTokens h
  · intro h
    exact h.ofTokens_eq

end CallForms

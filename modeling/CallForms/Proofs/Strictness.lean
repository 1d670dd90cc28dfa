import CallForms.Proofs.Viability

/-!
What a strict reader does otherwise.

A strict reader takes the steps of a permissive one, and refuses one token more: a token that would
name a call without being a name. Until it comes to such a token the two are in the same state, so
they agree on everything else, errors included.
-/

namespace CallForms

/-- The tokens that stand where a call is named: behind an opening parenthesis that does not name a
call itself. `awaited` says whether such a parenthesis stands in front of the tokens. -/
def Token.callees : (awaited : Bool) → List Token → List Token
  | _, [] => []
  | true, t :: ts => t :: callees false ts
  | false, t :: ts => callees (t = .openParen) ts

namespace Reading

section Steps

variable {strict : Bool} {r next : Reading} {t : Token}

/-- A token is a callee just when the reader awaits a name. -/
theorem Steps.callees_cons (h : Steps strict r t next) (ts : List Token) :
    Token.callees r.awaitsName (t :: ts) =
      (if r.awaitsName then [t] else []) ++ Token.callees next.awaitsName ts := by
  cases h with
  | name hawaits _ => simp [Token.callees, hawaits, enterCall]
  | number value hready => simp [Token.callees, hready, push, Token.openParen]
  | string value hready => simp [Token.callees, hready, push, Token.openParen]
  | openCall hready => simp [Token.callees, hready]
  | closeCall hready _ => simp [Token.callees, hready, Token.openParen, Token.closeParen]

theorem Steps.names_eq (h : Steps strict r t next) :
    next.names = (if r.awaitsName then [t.value] else []) ++ r.names := by
  cases h with
  | name hawaits _ => simp [hawaits, enterCall]
  | number _ hready | string _ hready => simp [hready, push]
  | openCall hready => simp [hready]
  | closeCall hready _ => simp [hready]

theorem Steps.kind_eq_name (h : Steps true r t next) (hawaits : r.awaitsName = true) :
    t.kind = .name := by
  cases h with
  | name _ hname => exact hname rfl
  | number _ hready | string _ hready | openCall hready | closeCall hready _ =>
      simp [hawaits] at hready

theorem Steps.loosen (h : Steps true r t next) : Steps false r t next := by
  cases h with
  | name hawaits _ => exact .name hawaits (by simp)
  | number value hready => exact .number value hready
  | string value hready => exact .string value hready
  | openCall hready => exact .openCall hready
  | closeCall hready hcalls => exact .closeCall hready hcalls

theorem step_true_eq_or_invalidCallee (r : Reading) (t : Token) :
    r.step true t = r.step false t ∨
      r.awaitsName = true ∧ t.kind ≠ .name ∧ r.step true t = .error (.invalidCallee t) := by
  by_cases hcallee : r.awaitsName = true ∧ t.kind ≠ .name
  · exact .inr ⟨hcallee.1, hcallee.2, by simp [step, hcallee.1, hcallee.2]⟩
  · left
    unfold step
    split
    · next hawaits =>
      have hname : t.kind = .name := by simpa [hawaits] using hcallee
      simp [hname]
    · rfl

end Steps

namespace Reaches

variable {strict : Bool} {r last : Reading} {tokens : List Token}

theorem callees_append (h : Reaches strict r tokens last) (rest : List Token) :
    Token.callees r.awaitsName (tokens ++ rest) =
      Token.callees r.awaitsName tokens ++ Token.callees last.awaitsName rest := by
  induction h with
  | nil r => simp [Token.callees]
  | cons hstep _ ih =>
      rw [List.cons_append, hstep.callees_cons, hstep.callees_cons, ih, List.append_assoc]

/-- The names that a reader keeps are those of the callees it came by. -/
theorem names_eq (h : Reaches strict r tokens last) :
    last.names.reverse =
      r.names.reverse ++ (Token.callees r.awaitsName tokens).map Token.value := by
  induction h with
  | nil r => simp [Token.callees]
  | @cons r next last t ts hstep _ ih =>
      rw [ih, hstep.names_eq, hstep.callees_cons]
      cases r.awaitsName <;> simp

theorem names_parse (h : Reaches strict {} tokens last) :
    (Program.parse strict tokens).names = (Token.callees false tokens).map Token.value := by
  rw [Program.parse, h.run_eq]
  simpa using h.names_eq

/-- A strict reader comes by no callee but names. -/
theorem kind_of_mem_callees (h : Reaches true r tokens last) :
    ∀ t ∈ Token.callees r.awaitsName tokens, t.kind = .name := by
  induction h with
  | nil r => simp [Token.callees]
  | @cons r next last t ts hstep _ ih =>
      rw [hstep.callees_cons, List.forall_mem_append]
      refine ⟨?_, ih⟩
      cases hawaits : r.awaitsName with
      | true => simpa using hstep.kind_eq_name hawaits
      | false => simp

theorem loosen (h : Reaches true r tokens last) : Reaches false r tokens last := by
  induction h with
  | nil r => exact .nil r
  | cons hstep _ ih => exact .cons hstep.loosen ih

theorem reads (h : Reaches strict r tokens last) :
    ∀ {before : List Token}, Reads strict before r → Reads strict (before ++ tokens) last := by
  induction h with
  | nil r =>
      intro before hbefore
      rwa [List.append_nil]
  | @cons r next last t ts hstep _ ih =>
      intro before hbefore
      simpa using ih (hbefore.step hstep)

/-- A reader awaits a name only right behind an opening parenthesis. -/
theorem exists_eq_concat_openParen (h : Reaches strict {} tokens last)
    (hawaits : last.awaitsName = true) : ∃ before, tokens = before ++ [.openParen] := by
  have hstart : Reads strict [] {} := ⟨[], rfl, .body .nil⟩
  obtain ⟨before, htokens, -⟩ := h.reads hstart
  exact ⟨before, by simpa [hawaits] using htokens⟩

end Reaches

end Reading

/-- A strict reader gives what a permissive one gives, or stops at a callee that is not a name. -/
theorem Program.parse_true_eq_or_invalidCallee (tokens : List Token) :
    Program.parse true tokens = Program.parse false tokens ∨
      ∃ before found behind, tokens = before ++ .openParen :: found :: behind ∧
        found ∈ Token.callees false tokens ∧ found.kind ≠ .name ∧
        Program.ofTokens true tokens = .error (.invalidCallee found) := by
  rcases Reading.reaches_or_refuses true {} tokens with
    ⟨last, hlast⟩ | ⟨front, t, behind, last, e, rfl, hfront, hstep⟩
  · left
    rw [Program.parse, Program.parse, hlast.run_eq, hlast.loosen.run_eq]
  · rcases last.step_true_eq_or_invalidCallee t with hsame | ⟨hawaits, hname, hcallee⟩
    · left
      rw [Program.parse, Program.parse, hfront.run_refused hstep,
        hfront.loosen.run_refused (hsame ▸ hstep)]
    · right
      obtain ⟨before, rfl⟩ := hfront.exists_eq_concat_openParen hawaits
      refine ⟨before, t, behind, by simp, ?_, hname, ?_⟩
      · have hcallees : Token.callees false (before ++ [.openParen] ++ t :: behind) = _ :=
          hfront.callees_append (t :: behind)
        rw [hcallees, hawaits, Token.callees]
        simp
      · exact hfront.ofTokens_refused hcallee behind

theorem accepted_true_iff {tokens : List Token} :
    Accepted true tokens ↔
      Accepted false tokens ∧ ∀ t ∈ Token.callees false tokens, t.kind = .name := by
  constructor
  · intro haccepted
    obtain ⟨last, hlast⟩ := viable_iff_reaches.mp haccepted.viable
    refine ⟨?_, hlast.kind_of_mem_callees⟩
    rw [Accepted, hlast.ofTokens_eq] at haccepted
    rwa [Accepted, hlast.loosen.ofTokens_eq]
  · rintro ⟨haccepted, hnames⟩
    rcases Program.parse_true_eq_or_invalidCallee tokens with
      hsame | ⟨before, found, behind, -, hcallee, hkind, -⟩
    · rwa [Accepted, Program.ofTokens, hsame]
    · exact absurd (hnames found hcallee) hkind

/-- In accepted tokens the callees are what the reader takes the names of calls from. -/
theorem Accepted.names_parse {strict : Bool} {tokens : List Token} (h : Accepted strict tokens) :
    (Program.parse strict tokens).names = (Token.callees false tokens).map Token.value := by
  obtain ⟨last, hlast⟩ := viable_iff_reaches.mp h.viable
  exact hlast.names_parse

/-- Strict mode only removes programs. A text compiles as it does in permissive mode, with the same
output or the same error, unless its tokens hold one that is not a name right behind an opening
parenthesis and the strict compilation stops at it. It succeeds exactly if the permissive one does
and every callee is a name, where the callees of a text that compiles are the tokens that its call
names were read from. -/
theorem compile_strict_eq_or_invalidCallee (config : Config) (text : String) :
    (compile (config.withStrictCallee true) text = compile (config.withStrictCallee false) text ∨
      ∃ found tokens before behind,
        compile (config.withStrictCallee true) text = .error (.parse (.invalidCallee found)) ∧
        Token.ofText text = .ok tokens ∧ tokens = before ++ .openParen :: found :: behind ∧
        found.kind ≠ .name) ∧
    ((∃ output, compile (config.withStrictCallee true) text = .ok output) ↔
      (∃ output, compile (config.withStrictCallee false) text = .ok output) ∧
        ∀ tokens, Token.ofText text = .ok tokens →
          ∀ t ∈ Token.callees false tokens, t.kind = .name) ∧
    ∀ tokens output, Token.ofText text = .ok tokens →
      compile (config.withStrictCallee false) text = .ok output →
      (Program.parse false tokens).names = (Token.callees false tokens).map Token.value := by
  cases hscan : Token.ofText text with
  | error e =>
      have hfails (strict : Bool) :
          compile (config.withStrictCallee strict) text = .error (.lex e) :=
        compile_eq_lex_error_iff.mpr hscan
      simp [hfails]
  | ok tokens =>
      have hsucceeds (strict : Bool) :
          (∃ output, compile (config.withStrictCallee strict) text = .ok output) ↔
            Accepted strict tokens := by
        simp [exists_compile_eq_ok_iff, hscan, Config.withStrictCallee]
      refine ⟨?_, ?_, ?_⟩
      · rcases Program.parse_true_eq_or_invalidCallee tokens with
          hsame | ⟨before, found, behind, htokens, -, hkind, hinvalid⟩
        · left
          have hread : Program.ofTokens true tokens = Program.ofTokens false tokens := by
            rw [Program.ofTokens, Program.ofTokens, hsame]
          simp only [compile_eq_result_ofTokens, hscan, Compilation.result_ofTokens,
            Config.withStrictCallee, hread]
        · right
          refine ⟨found, tokens, before, behind, ?_, rfl, htokens, hkind⟩
          exact compile_eq_parse_error_iff.mpr ⟨tokens, hscan, hinvalid⟩
      · simpa [hsucceeds] using accepted_true_iff
      · rintro _ output ⟨rfl⟩ houtput
        exact ((hsucceeds false).mp ⟨output, houtput⟩).names_parse

end CallForms

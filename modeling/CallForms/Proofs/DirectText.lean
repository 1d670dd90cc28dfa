import CallForms.Compilation
import CallForms.Proofs.Lowering
import CallForms.Proofs.Rendering

/-!
Compiling in one recursion.

Scanning and reading are the only stages that ever fail. What they leave is compiled to the text
that recursion on the forms gives; no code is built and nothing is collected on the way.
-/

namespace CallForms

namespace Compilation

@[simp] theorem result_after (earlier : List Event) (c : Compilation) :
    (c.after earlier).result = c.result := rfl

/-- A program always compiles, to the text of its forms. -/
theorem result_ofProgram (config : Config) (program : Program) :
    (ofProgram config program).result = .ok (program.callText config.toLayout) := by
  simp [ofProgram, ofListing, Program.lowering_eq, Program.render_toListing]

theorem result_ofTokens (config : Config) (tokens : List Token) :
    (ofTokens config tokens).result =
      match Program.ofTokens config.strictCallee tokens with
      | .error e => .error (.parse e)
      | .ok program => .ok (program.callText config.toLayout) := by
  cases hparse : (Program.parse config.strictCallee tokens).result with
  | error e => simp [ofTokens, Program.ofTokens, hparse]
  | ok program => simp [ofTokens, Program.ofTokens, hparse, result_ofProgram]

end Compilation

theorem compile_eq_result_ofTokens (config : Config) (text : String) :
    compile config text =
      match Token.ofText text with
      | .error e => .error (.lex e)
      | .ok tokens => (Compilation.ofTokens config tokens).result := by
  cases hscan : (Scan.ofText text).result <;>
    simp [compile, Compilation.ofText, Token.ofText, hscan]

/-- The text scans to tokens that read as the program. -/
def ReadsAs (strict : Bool) (text : String) (program : Program) : Prop :=
  ∃ tokens, Token.ofText text = .ok tokens ∧ Program.ofTokens strict tokens = .ok program

theorem compile_eq_ok_iff {config : Config} {text output : String} :
    compile config text = .ok output ↔
      ∃ program, ReadsAs config.strictCallee text program ∧
        program.callText config.toLayout = output := by
  rw [compile_eq_result_ofTokens]
  cases hscan : Token.ofText text with
  | error e => simp [ReadsAs, hscan]
  | ok tokens =>
      cases hread : Program.ofTokens config.strictCallee tokens with
      | error e => simp [ReadsAs, Compilation.result_ofTokens, hscan, hread]
      | ok program => simp [ReadsAs, Compilation.result_ofTokens, hscan, hread]

theorem compile_eq_lex_error_iff {config : Config} {text : String} {e : LexError} :
    compile config text = .error (.lex e) ↔ Token.ofText text = .error e := by
  rw [compile_eq_result_ofTokens]
  cases hscan : Token.ofText text with
  | error e => simp
  | ok tokens =>
      cases hread : Program.ofTokens config.strictCallee tokens <;>
        simp [Compilation.result_ofTokens, hread]

theorem compile_eq_parse_error_iff {config : Config} {text : String} {e : ParseError} :
    compile config text = .error (.parse e) ↔
      ∃ tokens, Token.ofText text = .ok tokens ∧
        Program.ofTokens config.strictCallee tokens = .error e := by
  rw [compile_eq_result_ofTokens]
  cases hscan : Token.ofText text with
  | error e => simp
  | ok tokens =>
      cases hread : Program.ofTokens config.strictCallee tokens <;>
        simp [Compilation.result_ofTokens, hread]

/-- Compiling is scanning, reading and taking the text of the forms. Lowering and rendering add no
failure of their own. -/
theorem compile_eq_callText (config : Config) (text : String) :
    (compile config text =
      match Token.ofText text with
      | .error e => .error (.lex e)
      | .ok tokens =>
          match Program.ofTokens config.strictCallee tokens with
          | .error e => .error (.parse e)
          | .ok program => .ok (program.callText config.toLayout)) ∧
      (∀ e, compile config text ≠ .error (.walk e)) ∧
      ∀ e, compile config text ≠ .error (.render e) := by
  have hcompile := compile_eq_result_ofTokens config text
  simp only [Compilation.result_ofTokens] at hcompile
  refine ⟨hcompile, ?_⟩
  rw [hcompile]
  constructor
  · intro e
    split
    · simp
    · split <;> simp
  · intro e
    split
    · simp
    · split <;> simp

end CallForms

import CallForms.Proofs.Counting
import CallForms.Proofs.Growing
import CallForms.Proofs.Viability

/-!
Texts that compile once more is typed behind them.

The reader judges tokens by their shapes, and these stay as they are when the text grows. So a text
that scans can be completed just when its tokens are viable, and a string that no quote closes yet
counts as any other string. Behind a foreign character nothing helps.
-/

namespace CallForms

namespace Counter

theorem step_shape_eq_ok_iff (strict : Bool) (c next : Counter) (t : Token) :
    c.step strict t.shape = .ok next ↔ c.step strict t = .ok next := by
  obtain ⟨kind, value⟩ := t
  cases kind with
  | paren => rfl
  | string =>
      simp only [Token.shape, step]
      cases c.awaitsName <;> cases strict <;> simp
  | number =>
      simp only [Token.shape, step]
      cases c.awaitsName <;> cases strict <;> simp
  | name =>
      simp only [Token.shape, step, Token.openParen, Token.closeParen]
      cases c.awaitsName <;> simp

theorem run_map_shape_eq_ok_iff (strict : Bool) (c : Counter) (tokens : List Token) :
    c.run strict (tokens.map Token.shape) = .ok () ↔ c.run strict tokens = .ok () := by
  induction tokens generalizing c with
  | nil => rfl
  | cons t tokens ih =>
      have hstep := step_shape_eq_ok_iff strict c
      simp only [List.map_cons, run]
      cases hshape : c.step strict t.shape with
      | ok next =>
          rw [(hstep next t).mp hshape]
          exact ih next
      | error e =>
          cases ht : c.step strict t with
          | ok next => simp [(hstep next t).mpr ht] at hshape
          | error e' => simp

end Counter

theorem accepted_iff_counter_run {strict : Bool} {tokens : List Token} :
    Accepted strict tokens ↔ Counter.run strict {} tokens = .ok () := by
  rw [Accepted, ← Program.map_ofTokens]
  cases Program.ofTokens strict tokens <;> simp [Except.map]

/-- Viability is a matter of shape. -/
theorem Viable.of_shape {strict : Bool} {tokens others : List Token} (h : Viable strict others)
    (hshape : tokens.map Token.shape <+: others.map Token.shape) : Viable strict tokens := by
  obtain ⟨full, hfull, haccepted⟩ := h
  obtain ⟨more, hmore⟩ := hshape.trans (hfull.map Token.shape)
  obtain ⟨front, rest, rfl, hfront, -⟩ := List.map_eq_append_iff.mp hmore.symm
  have hsame : (tokens ++ rest).map Token.shape = (front ++ rest).map Token.shape := by
    rw [List.map_append, List.map_append, hfront]
  refine ⟨tokens ++ rest, List.prefix_append _ _, ?_⟩
  rw [accepted_iff_counter_run, ← Counter.run_map_shape_eq_ok_iff] at haccepted ⊢
  rwa [hsame]

theorem Reading.wellFormed_of_mem_closing {r : Reading} {t : Token} (ht : t ∈ r.closing) :
    t.WellFormed := by
  have hclose : Token.closeParen.WellFormed := .inr rfl
  have hname : Token.WellFormed ⟨.name, "f"⟩ := by
    simp [Token.WellFormed]
  rw [closing, List.mem_append] at ht
  rcases ht with hcall | hcloses
  · split at hcall
    · simp only [List.mem_cons, List.not_mem_nil, or_false] at hcall
      rcases hcall with rfl | rfl
      · exact hname
      · exact hclose
    · simp at hcall
  · rwa [List.eq_of_mem_replicate hcloses]

/-- Some text that begins with this one compiles. -/
def Completable (config : Config) (text : String) : Prop :=
  ∃ more output, compile config (text ++ more) = .ok output

/-- A text that scans can be completed if its tokens can. -/
theorem completable_iff_viable {config : Config} {text : String} {tokens : List Token}
    (hscan : Token.ofText text = .ok tokens) :
    Completable config text ↔ Viable config.strictCallee tokens := by
  constructor
  · rintro ⟨more, hmore⟩
    obtain ⟨others, hothers, haccepted⟩ := exists_compile_eq_ok_iff.mp hmore
    exact haccepted.viable.of_shape (Token.map_shape_isPrefix hscan hothers)
  · intro hviable
    obtain ⟨last, hlast⟩ := viable_iff_reaches.mp hviable
    have hmore := Token.ofText_append_spaced hscan fun t => last.wellFormed_of_mem_closing
    exact ⟨_, exists_compile_eq_ok_iff.mpr ⟨_, hmore, hlast.accepted_append_closing⟩⟩

/-- A string that is not closed yet is worth as much as an empty one. -/
theorem completable_unclosed_iff_viable {config : Config} {before rest : String}
    {tokens : List Token} (hscan : Token.ofText before = .ok tokens)
    (hrest : Token.quote ∉ rest.toList) :
    Completable config (before ++ "\"" ++ rest) ↔
      Viable config.strictCallee (tokens ++ [⟨.string, ""⟩]) := by
  let ending (content : String) : List Token := tokens ++ [⟨.string, content⟩]
  have hshape (content content' : String) :
      (ending content).map Token.shape <+: (ending content').map Token.shape := by
    simp [ending, Token.shape]
  constructor
  · rintro ⟨more, output, houtput⟩
    by_cases hquote : Token.quote ∈ more.toList
    · obtain ⟨inner, behind, hmore, hinner⟩ := List.eq_append_cons_of_mem hquote
      have hclosed : Token.ofText (before ++ "\"" ++ (rest ++ String.ofList inner) ++ "\"") =
          .ok (tokens ++ [⟨.string, rest ++ String.ofList inner⟩]) :=
        Token.ofText_append_quoted hscan (by simp [hrest, hinner])
      have htext : before ++ "\"" ++ rest ++ more =
          before ++ "\"" ++ (rest ++ String.ofList inner) ++ "\"" ++ String.ofList behind := by
        rw [← String.toList_inj]
        simp [hmore, Token.quote]
      rw [htext] at houtput
      have hviable := (completable_iff_viable hclosed).mp ⟨_, _, houtput⟩
      exact hviable.of_shape (hshape _ _)
    · have hboth : Token.quote ∉ (rest ++ more).toList := by simp [hrest, hquote]
      obtain ⟨_, htokens, -⟩ := exists_compile_eq_ok_iff.mp ⟨output, houtput⟩
      rw [String.append_assoc, Token.ofText_append_unclosed hscan hboth] at htokens
      cases htokens
  · intro hviable
    have hclosed := Token.ofText_append_quoted hscan hrest
    obtain ⟨more, hmore⟩ := (completable_iff_viable hclosed).mpr (hviable.of_shape (hshape _ _))
    exact ⟨"\"" ++ more, by simpa [String.append_assoc] using hmore⟩

/-- Whether a text that fails to compile can be completed shows in its error. It can if the tokens
ended too early. It also can if a string was not closed and the text in front of it, with an empty
string instead, compiles or again only ends too early. After any other error no text that begins
with this one compiles. -/
theorem compile_completable_iff {config : Config} {text : String} {e : CompileError}
    (hfails : compile config text = .error e) :
    ((∃ more output, compile config (text ++ more) = .ok output) ↔
      (∃ expected, e = .parse (.unexpectedEnd expected)) ∨
        ∃ offset, e = .lex (.unterminatedString offset) ∧
          ((∃ output, compile config (firstBytes offset text ++ "\"\"") = .ok output) ∨
            ∃ expected, compile config (firstBytes offset text ++ "\"\"") =
              .error (.parse (.unexpectedEnd expected)))) ∧
    ((∃ ch offset, e = .lex (.unexpectedCharacter ch offset)) ∨
        (∃ found expected, e = .parse (.unexpectedToken found expected)) ∨
        (∃ found, e = .parse (.invalidCallee found)) →
      ∀ more output, compile config (text ++ more) ≠ .ok output) := by
  -- That nothing helps after the other errors is the first part, read from left to right.
  refine (and_iff_left_of_imp ?_).mpr ?_
  · intro hiff hhopeless more output houtput
    have herror := hiff.mp ⟨more, output, houtput⟩
    rcases hhopeless with ⟨ch, offset, rfl⟩ | ⟨found, expected, rfl⟩ | ⟨found, rfl⟩ <;>
      simp at herror
  cases hscan : Token.ofText text with
  | ok tokens =>
      have hlex (cause : LexError) : e ≠ .lex cause := by
        rintro rfl
        simp [compile_eq_lex_error_iff, hscan] at hfails
      have hcompletable : Completable config text ↔ Viable config.strictCallee tokens :=
        completable_iff_viable hscan
      rw [viable_iff_compile hscan, hfails] at hcompletable
      simpa [hlex, Completable] using hcompletable
  | error cause =>
      rw [compile_eq_lex_error_iff.mpr hscan] at hfails
      cases hfails
      cases cause with
      | unexpectedCharacter ch offset =>
          have hsame := Token.ofText_append_of_unexpectedCharacter hscan
          simp [compile_eq_ok_iff, ReadsAs, hsame]
      | unterminatedString offset =>
          obtain ⟨before, rest, tokens, rfl, rfl, hbefore, hrest⟩ := Token.exists_unclosed hscan
          have hempty : Token.ofText (before ++ "\"\"") = .ok (tokens ++ [⟨.string, ""⟩]) := by
            have hquoted : Token.quote ∉ "".toList := by simp
            simpa [String.append_assoc] using Token.ofText_append_quoted hbefore hquoted
          have hfirst : firstBytes before.utf8ByteSize (before ++ "\"" ++ rest) = before := by
            rw [String.append_assoc, firstBytes_append]
          have hcompletable : Completable config (before ++ "\"" ++ rest) ↔
              Viable config.strictCallee (tokens ++ [⟨.string, ""⟩]) :=
            completable_unclosed_iff_viable hbefore hrest
          rw [viable_iff_compile hempty] at hcompletable
          simpa [hfirst, Completable] using hcompletable

/-- A string that begins where a call is named: in strict mode nothing can save it, and otherwise
the call only lacks its end. -/
theorem compile_completable_iff_callee :
    compile { strictCallee := true } "(f 1 (\"x" = .error (.lex (.unterminatedString 6)) ∧
      (¬ ∃ more output, compile { strictCallee := true } ("(f 1 (\"x" ++ more) = .ok output) ∧
      compile {} "(f 1 (\"x" = .error (.lex (.unterminatedString 6)) ∧
      ∃ more output, compile {} ("(f 1 (\"x" ++ more) = .ok output := by
  have hstrict : compile { strictCallee := true } "(f 1 (\"x" =
      .error (.lex (.unterminatedString 6)) := compile_eq_lex_error_iff.mpr (by decide +kernel)
  have hplain : compile {} "(f 1 (\"x" = .error (.lex (.unterminatedString 6)) :=
    compile_eq_lex_error_iff.mpr (by decide +kernel)
  have hcallee : compile { strictCallee := true } (firstBytes 6 "(f 1 (\"x" ++ "\"\"") =
      .error (.parse (.invalidCallee ⟨.string, ""⟩)) := by
    simp only [compile_eq_result_ofTokens, Compilation.result_ofTokens]
    decide +kernel
  have hend : compile {} (firstBytes 6 "(f 1 (\"x" ++ "\"\"") =
      .error (.parse (.unexpectedEnd "')'")) := by
    simp only [compile_eq_result_ofTokens, Compilation.result_ofTokens]
    decide +kernel
  refine ⟨hstrict, ?_, hplain, ?_⟩
  · rw [(compile_completable_iff hstrict).1]
    simp [hcallee]
  · rw [(compile_completable_iff hplain).1]
    exact .inr ⟨6, rfl, .inr ⟨_, hend⟩⟩

end CallForms

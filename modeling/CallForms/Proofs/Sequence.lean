import CallForms.Proofs.Counting
import CallForms.Proofs.DirectText
import CallForms.Proofs.Joining
import CallForms.Proofs.Reading

/-!
Compiling one text behind another.

No stage carries anything over from a program that is complete to the forms behind it. The second
text gives the output or the error it gives alone; a line separator goes between two outputs, and
what is said about bytes counts those of the first text as well.
-/

namespace CallForms

theorem Derives.exists_eq_concat {strict : Bool} {tokens : List Token} {form : Form}
    (h : Derives strict tokens form) :
    ∃ front last, tokens = front ++ [last] ∧ last.kind ≠ .name := by
  cases h with
  | number value => exact ⟨[], _, rfl, by simp⟩
  | string value => exact ⟨[], _, rfl, by simp⟩
  | @call name tokens params _ _ =>
      exact ⟨.openParen :: name :: tokens, .closeParen, rfl, by simp [Token.closeParen]⟩

namespace DerivesAll

variable {strict : Bool} {tokens more : List Token} {forms next : List Form}

theorem append (h : DerivesAll strict tokens forms) (hmore : DerivesAll strict more next) :
    DerivesAll strict (tokens ++ more) (forms ++ next) := by
  induction forms generalizing tokens with
  | nil =>
      cases h
      exact hmore
  | cons form forms ih =>
      cases h with
      | cons hform hforms =>
          rw [List.append_assoc]
          exact .cons hform (ih hforms)

theorem forms_eq_nil_iff (h : DerivesAll strict tokens forms) : forms = [] ↔ tokens = [] := by
  cases h with
  | nil => simp
  | cons hform _ => cases hform <;> simp

/-- A literal or a closing parenthesis ends every list of forms. -/
theorem kind_getLast_ne_name (h : DerivesAll strict tokens forms) :
    ∀ t ∈ tokens.getLast?, t.kind ≠ .name := by
  induction forms generalizing tokens with
  | nil =>
      cases h
      simp
  | cons form forms ih =>
      cases h with
      | cons hform hforms =>
          intro t ht
          obtain ⟨front, last, rfl, hkind⟩ := hform.exists_eq_concat
          rw [Option.mem_def, List.getLast?_append, Option.or_eq_some_iff] at ht
          rcases ht with hlast | ⟨-, hlast⟩
          · exact ih hforms t hlast
          · simp only [List.getLast?_concat, Option.some.injEq] at hlast
            rwa [← hlast]

end DerivesAll

namespace Program

/-- Forms behind a program are read as if they stood alone, and join the program. -/
theorem ofTokens_append {strict : Bool} {tokens : List Token} {program : Program}
    (h : Program.ofTokens strict tokens = .ok program) (more : List Token) :
    Program.ofTokens strict (tokens ++ more) =
      (Program.ofTokens strict more).map fun next => ⟨program.body ++ next.body⟩ := by
  have hderives := Program.derivesAll_of_ofTokens h
  cases hmore : Program.ofTokens strict more with
  | ok next =>
      have hboth := hderives.append (Program.derivesAll_of_ofTokens hmore)
      exact hboth.ofTokens_eq
  | error e =>
      -- The reader comes to the second tokens with no call open, as it would at their start.
      have hrun := hderives.run_append {} more rfl
      have hcounter : (Reading.after {} program.body).counter = Reading.counter {} := rfl
      simp only [Program.ofTokens, Program.parse, hrun, Except.map]
      exact (Reading.result_run_eq_error_iff hcounter more e).mpr hmore

theorem callText_append {layout : Layout} {forms next : List Form} (hforms : forms ≠ [])
    (hnext : next ≠ []) :
    callText layout ⟨forms ++ next⟩ =
      callText layout ⟨forms⟩ ++ layout.lineSeparator ++ callText layout ⟨next⟩ := by
  have hlines : forms.map (Form.lineText layout) ≠ [] := by simpa using hforms
  have hmore : next.map (Form.lineText layout) ≠ [] := by simpa using hnext
  simp only [callText, List.map_append]
  exact String.intercalate_append_of_ne_nil hlines hmore

end Program

/-- A text that is read as a program ends neither in a name nor, unless a digit follows, in a
number that could go on. -/
theorem ReadsAs.keepApart {strict : Bool} {text : String} {program : Program}
    (h : ReadsAs strict text program) {rest : List Char}
    (hdigits : ∀ ch ∈ text.toList.getLast?, ch.isDigit = true → EndsRun Char.isDigit rest) :
    KeepApart text.toList rest := by
  obtain ⟨tokens, hscan, hread⟩ := h
  rw [Token.ofText_eq_ok_iff] at hscan
  intro kind ch hch hcontinues
  cases kind with
  | number => exact hdigits ch hch hcontinues
  | name =>
      obtain ⟨t, ht, hname⟩ := hscan.exists_last_token hch hcontinues
      exact absurd hname ((Program.derivesAll_of_ofTokens hread).kind_getLast_ne_name t ht)
  | paren => cases hcontinues
  | string => cases hcontinues

/-- The result of compiling a second text behind a first one that is read. -/
theorem compile_append {config : Config} {first second : String} {tokens : List Token}
    {program : Program} (hscan : Token.ofText first = .ok tokens)
    (hread : Program.ofTokens config.strictCallee tokens = .ok program)
    (hapart : KeepApart first.toList second.toList) :
    compile config (first ++ second) =
      match Token.ofText second with
      | .error e => .error (.lex (e.shift first.utf8ByteSize))
      | .ok more =>
          match Program.ofTokens config.strictCallee more with
          | .error e => .error (.parse e)
          | .ok next => .ok (Program.callText config.toLayout ⟨program.body ++ next.body⟩) := by
  rw [compile_eq_result_ofTokens, Token.ofText_append hscan hapart]
  cases Token.ofText second with
  | error e => rfl
  | ok more =>
      simp only [Compilation.result_ofTokens, Program.ofTokens_append hread]
      cases Program.ofTokens config.strictCallee more <;> rfl

/-- Compiling is a homomorphism. Behind a text that compiles, and a gap where two numbers would run
together, a second text adds its own output on a new line, or fails with its own error. A text
without tokens adds nothing, and the bytes of the first text and the gap move a lexical error. -/
theorem compile_append_gap_append {config : Config} {first output : String}
    (hfirst : compile config first = .ok output) (gap second : String) (hgap : IsGap gap.toList)
    (hdigits : (∃ ch ∈ first.toList.getLast?, ch.isDigit = true) →
      (∃ ch ∈ second.toList.head?, ch.isDigit = true) → gap ≠ "") :
    (∀ more, compile config second = .ok more →
      (Token.ofText first ≠ .ok [] → Token.ofText second ≠ .ok [] →
        compile config (first ++ gap ++ second) = .ok (output ++ config.lineSeparator ++ more)) ∧
      (Token.ofText first = .ok [] → compile config (first ++ gap ++ second) = .ok more) ∧
      (Token.ofText second = .ok [] → compile config (first ++ gap ++ second) = .ok output)) ∧
    (∀ e, compile config second = .error (.parse e) →
      compile config (first ++ gap ++ second) = .error (.parse e)) ∧
    ∀ e, compile config second = .error (.lex e) →
      compile config (first ++ gap ++ second) =
        .error (.lex (e.shift (first ++ gap).utf8ByteSize)) := by
  obtain ⟨program, ⟨tokens, hscan, hread⟩, rfl⟩ := compile_eq_ok_iff.mp hfirst
  have hscanned : Token.ofText (first ++ gap) = .ok tokens := Token.ofText_append_gap hscan hgap
  have hapart : KeepApart (first ++ gap).toList second.toList := by
    rw [String.toList_append]
    apply hgap.keepApart_append
    intro hempty
    apply ReadsAs.keepApart ⟨tokens, hscan, hread⟩
    intro ch hch hdigit next hnext
    rw [Bool.eq_false_iff]
    intro hmore
    exact hdigits ⟨ch, hch, hdigit⟩ ⟨next, hnext, hmore⟩ (String.toList_eq_nil_iff.mp hempty)
  have hboth := compile_append hscanned hread hapart
  have hempty := (Program.derivesAll_of_ofTokens hread).forms_eq_nil_iff
  refine ⟨?_, ?_, ?_⟩
  · intro more hsecond
    obtain ⟨next, ⟨nextTokens, hscan', hread'⟩, rfl⟩ := compile_eq_ok_iff.mp hsecond
    have hempty' := (Program.derivesAll_of_ofTokens hread').forms_eq_nil_iff
    simp only [hscan', hread'] at hboth
    simp only [hboth, hscan, hscan', ne_eq, Except.ok.injEq, ← hempty, ← hempty']
    refine ⟨?_, ?_, ?_⟩
    · intro hne hne'
      exact Program.callText_append hne hne'
    · intro hnil
      rw [hnil, List.nil_append]
    · intro hnil
      rw [hnil, List.append_nil]
  · intro e hsecond
    obtain ⟨nextTokens, hscan', hread'⟩ := compile_eq_parse_error_iff.mp hsecond
    simpa only [hscan', hread'] using hboth
  · intro e hsecond
    simpa only [compile_eq_lex_error_iff.mp hsecond] using hboth

/-- Behind a text that ends with a digit, the wide space U+3000 keeps a number apart and counts for
three bytes. -/
theorem compile_append_gap_append_number :
    compile {} "(f)1" = .ok "f();\n1" ∧ IsGap "\u3000".toList ∧
      compile {} ("(f)1" ++ "\u3000" ++ "2") = .ok ("f();\n1" ++ "\n" ++ "2") ∧
      compile {} ("(f)1" ++ "\u3000" ++ "2 (g") = .error (.parse (.unexpectedEnd "')'")) ∧
      compile {} ("(f)1" ++ "\u3000" ++ "2 é") = .error (.lex (.unexpectedCharacter 'é' 9)) := by
  have hfirst : compile {} "(f)1" = .ok "f();\n1" := by
    simp only [compile_eq_result_ofTokens, Compilation.result_ofTokens]
    decide +kernel
  have hgap : IsGap "\u3000".toList := by
    simp
    decide
  have hbehind (second : String) :=
    compile_append_gap_append hfirst "\u3000" second hgap fun _ _ => by decide
  have htokens : Token.ofText "(f)1" =
      .ok [.openParen, ⟨.name, "f"⟩, .closeParen, ⟨.number, "1"⟩] := by decide +kernel
  have htokens' : Token.ofText "2" = .ok [⟨.number, "2"⟩] := by decide +kernel
  have hsecond : compile {} "2" = .ok "2" := by
    simp only [compile_eq_result_ofTokens, Compilation.result_ofTokens]
    decide +kernel
  have hopen : compile {} "2 (g" = .error (.parse (.unexpectedEnd "')'")) := by
    simp only [compile_eq_result_ofTokens, Compilation.result_ofTokens]
    decide +kernel
  refine ⟨hfirst, hgap, ?_, ?_, ?_⟩
  · exact ((hbehind "2").1 "2" hsecond).1 (by simp [htokens]) (by simp [htokens'])
  · exact (hbehind "2 (g").2.1 _ hopen
  · exact (hbehind "2 é").2.2 (.unexpectedCharacter 'é' 2)
      (compile_eq_lex_error_iff.mpr (by decide +kernel))

end CallForms

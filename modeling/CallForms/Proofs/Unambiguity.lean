import CallForms.Proofs.DirectText
import CallForms.Proofs.Reading
import CallForms.Proofs.Scanning

/-!
Compiled text can be read in one way only, as long as a layout keeps things apart.

A form is cut off the front of a text: its first character tells its kind, and its own text ends
where what follows can no longer belong to it. Items with separators between them are cut off one
by one. Strings may hold anything but a quote, separators included, since they are cut at their
quotes; the terminator may even be empty, since it is known from the form in front of it.
-/

namespace CallForms

/-- Two texts that begin with a run and agree have the same run in front. -/
theorem run_append_inj {p : Char → Bool} {run other rest tail : List Char}
    (hrun : ∀ ch ∈ run, p ch = true) (hother : ∀ ch ∈ other, p ch = true)
    (hrest : EndsRun p rest) (htail : EndsRun p tail) (h : run ++ rest = other ++ tail) :
    run = other ∧ rest = tail := by
  have htake := congrArg (List.takeWhile p) h
  have hdrop := congrArg (List.dropWhile p) h
  rw [takeWhile_run hrun hrest, takeWhile_run hother htail] at htake
  rw [dropWhile_run hrun hrest, dropWhile_run hother htail] at hdrop
  exact ⟨htake, hdrop⟩

/-- The separators are there and hold nothing that a token could begin with. The terminator may be
empty, and all three may be the same. -/
structure Layout.Separates (layout : Layout) : Prop where
  argument_ne : layout.argumentSeparator ≠ ""
  argument_neutral : ∀ ch ∈ layout.argumentSeparator.toList, isNeutral ch = true
  terminator_neutral : ∀ ch ∈ layout.statementTerminator.toList, isNeutral ch = true
  line_ne : layout.lineSeparator ≠ ""
  line_neutral : ∀ ch ∈ layout.lineSeparator.toList, isNeutral ch = true

/-- A neutral text ends a number. -/
theorem endsRun_isDigit_append {separator rest : List Char}
    (hneutral : ∀ ch ∈ separator, isNeutral ch = true)
    (hrest : separator = [] → EndsRun Char.isDigit rest) :
    EndsRun Char.isDigit (separator ++ rest) :=
  endsRun_append (fun ch hch => ((isNeutral_iff ch).mp (hneutral ch hch)).1) hrest

section Items

variable {α : Type} {text : α → List Char} {separator rest tail : List Char}
  {items others : List α}

/-- If a text begins with both items, they are the same and so is what follows them. No digit comes
right behind an item, or a number could be cut anywhere. -/
def CutsAlike (text : α → List Char) (item other : α) : Prop :=
  ∀ rest tail, EndsRun Char.isDigit rest → EndsRun Char.isDigit tail →
    text item ++ rest = text other ++ tail → item = other ∧ rest = tail

/-- No further item stands behind a separator here. -/
def EndsItems (separator rest : List Char) : Prop :=
  EndsRun Char.isDigit rest ∧ ¬ separator <+: rest

theorem endsItems_nil (hne : separator ≠ []) : EndsItems separator [] := by
  refine ⟨endsRun_nil _, ?_⟩
  rwa [List.prefix_nil]

theorem endsItems_close (hne : separator ≠ []) (hneutral : ∀ ch ∈ separator, isNeutral ch = true)
    (rest : List Char) : EndsItems separator (')' :: rest) := by
  refine ⟨by simp, ?_⟩
  obtain ⟨ch, more, rfl⟩ := List.exists_cons_of_ne_nil hne
  have hch := (isNeutral_iff ch).mp (hneutral ch (by simp))
  rw [List.cons_prefix_cons]
  rintro ⟨rfl, -⟩
  exact hch.2.2.2.1 rfl

/-- Behind an item comes a separator or the end, and both end a number. -/
theorem EndsItems.endsRun (h : EndsItems separator rest)
    (hneutral : ∀ ch ∈ separator, isNeutral ch = true) (items : List α) :
    EndsRun Char.isDigit (items.flatMap (fun item => separator ++ text item) ++ rest) := by
  cases items with
  | nil => exact h.1
  | cons item items =>
      rw [List.flatMap_cons, List.append_assoc, List.append_assoc]
      apply endsRun_isDigit_append hneutral
      rintro rfl
      exact absurd List.nil_prefix h.2

/-- Items that each have a separator in front are cut off one by one. -/
theorem separated_append_inj (hneutral : ∀ ch ∈ separator, isNeutral ch = true)
    (hcut : ∀ item ∈ items, ∀ other ∈ others, CutsAlike text item other)
    (hrest : EndsItems separator rest) (htail : EndsItems separator tail)
    (h : items.flatMap (fun item => separator ++ text item) ++ rest =
      others.flatMap (fun item => separator ++ text item) ++ tail) :
    items = others ∧ rest = tail := by
  induction items generalizing others with
  | nil =>
      cases others with
      | nil => exact ⟨rfl, by simpa using h⟩
      | cons other others =>
          refine absurd ?_ hrest.2
          simp only [List.flatMap_nil, List.nil_append, List.flatMap_cons, List.append_assoc] at h
          exact ⟨_, h.symm⟩
  | cons item items ih =>
      cases others with
      | nil =>
          refine absurd ?_ htail.2
          simp only [List.flatMap_nil, List.nil_append, List.flatMap_cons, List.append_assoc] at h
          exact ⟨_, h⟩
      | cons other others =>
          simp only [List.flatMap_cons, List.append_assoc, List.append_cancel_left_eq] at h
          obtain ⟨rfl, hmore⟩ := hcut item (by simp) other (by simp) _ _
            (hrest.endsRun hneutral items) (htail.endsRun hneutral others) h
          obtain ⟨rfl, hend⟩ := ih (fun item hitem other hother =>
            hcut item (by simp [hitem]) other (by simp [hother])) hmore
          exact ⟨rfl, hend⟩

theorem intercalate_map_cons (first : α) (items : List α) :
    separator.intercalate ((first :: items).map text) =
      text first ++ items.flatMap (fun item => separator ++ text item) := by
  induction items generalizing first with
  | nil => simp
  | cons item items ih =>
      rw [List.map_cons, List.map_cons, List.intercalate_cons_cons, ← List.map_cons, ih]
      simp

/-- Items with a separator between neighbours are found again. -/
theorem intercalate_append_inj (hneutral : ∀ ch ∈ separator, isNeutral ch = true)
    (hcut : ∀ item ∈ items, ∀ other ∈ others, CutsAlike text item other)
    (hrest : EndsItems separator rest) (htail : EndsItems separator tail)
    (hitems : ∀ item ∈ items, ∀ more, text item ++ more ≠ tail)
    (hothers : ∀ other ∈ others, ∀ more, text other ++ more ≠ rest)
    (h : separator.intercalate (items.map text) ++ rest =
      separator.intercalate (others.map text) ++ tail) :
    items = others ∧ rest = tail := by
  cases items with
  | nil =>
      cases others with
      | nil => exact ⟨rfl, by simpa using h⟩
      | cons other others =>
          rw [intercalate_map_cons, List.append_assoc] at h
          exact absurd h.symm (hothers other (by simp) _)
  | cons item items =>
      cases others with
      | nil =>
          rw [intercalate_map_cons, List.append_assoc] at h
          exact absurd h (hitems item (by simp) _)
      | cons other others =>
          rw [intercalate_map_cons, intercalate_map_cons, List.append_assoc, List.append_assoc] at h
          obtain ⟨rfl, hmore⟩ := hcut item (by simp) other (by simp) _ _
            (hrest.endsRun hneutral items) (htail.endsRun hneutral others) h
          obtain ⟨rfl, hend⟩ := separated_append_inj hneutral (fun item hitem other hother =>
            hcut item (by simp [hitem]) other (by simp [hother])) hrest htail hmore
          exact ⟨rfl, hend⟩

end Items

/-- The characters that the text of a form of this kind can begin with. -/
def NodeKind.begins : NodeKind → Char → Bool
  | number, ch => ch.isDigit
  | string, ch => ch == Token.quote
  | call, ch => ch.isAlpha
  | program, _ => false

theorem NodeKind.eq_of_begins {kind other : NodeKind} {ch : Char} (h : kind.begins ch = true)
    (hother : other.begins ch = true) : kind = other := by
  have halpha (h : ch.isAlpha = true) := not_delimiter_of_isAlpha h
  have hdigit (h : ch.isDigit = true) := not_delimiter_of_isDigit h
  cases kind <;> cases other <;> simp_all [begins]

namespace Form

/-- The characters of a form's text. -/
def callChars (layout : Layout) (form : Form) : List Char :=
  (form.callText layout).toList

/-- The characters of a form's text in the body of a program. -/
def lineChars (layout : Layout) (form : Form) : List Char :=
  (form.lineText layout).toList

section Chars

variable (layout : Layout)

theorem callChars_number (value : String) : (number value).callChars layout = value.toList := by
  simp [callChars, callText]

theorem callChars_string (value : String) :
    (string value).callChars layout = Token.quote :: (value.toList ++ [Token.quote]) := by
  simp [callChars, callText, Token.quote]

theorem callChars_call (name : String) (params : List Form) :
    (call name params).callChars layout =
      name.toList ++ '(' :: (layout.argumentSeparator.toList.intercalate
        (params.map (callChars layout)) ++ [')']) := by
  have hparams : params.map (String.toList ∘ callText layout) = params.map (callChars layout) := rfl
  simp [callChars, callText, callTexts_eq_map, hparams]

end Chars

variable {layout : Layout} {form other : Form}

theorem WellFormed.exists_callChars_eq_cons (h : form.WellFormed) (layout : Layout) :
    ∃ ch more, form.callChars layout = ch :: more ∧ form.kind.begins ch = true := by
  cases h with
  | number ht =>
      obtain ⟨ch, more, hvalue, hdigit⟩ := exists_toList_eq_cons ht.1 ht.2
      exact ⟨ch, more, (callChars_number layout _).trans hvalue, hdigit⟩
  | @string value _ =>
      exact ⟨Token.quote, _, callChars_string layout value, by simp [kind, NodeKind.begins]⟩
  | call ht _ =>
      obtain ⟨ch, more, hvalue, halpha⟩ := exists_toList_eq_cons ht.1 ht.2
      rw [callChars_call, hvalue]
      exact ⟨ch, _, rfl, halpha⟩

theorem WellFormed.callChars_append_ne_close (h : form.WellFormed) (more rest : List Char) :
    form.callChars layout ++ more ≠ ')' :: rest := by
  obtain ⟨ch, _, htext, hbegins⟩ := h.exists_callChars_eq_cons layout
  rw [htext, List.cons_append]
  intro hclose
  cases (List.cons.inj hclose).1
  cases hkind : form.kind <;> simp [hkind, NodeKind.begins, Token.quote] at hbegins

/-- A text begins with forms of one kind only. -/
theorem kind_eq_of_append (hform : form.WellFormed) (hother : other.WellFormed)
    {rest tail : List Char} (h : form.callChars layout ++ rest = other.callChars layout ++ tail) :
    form.kind = other.kind := by
  obtain ⟨ch, more, htext, hbegins⟩ := hform.exists_callChars_eq_cons layout
  obtain ⟨ch', more', htext', hbegins'⟩ := hother.exists_callChars_eq_cons layout
  rw [htext, htext', List.cons_append, List.cons_append] at h
  cases (List.cons.inj h).1
  exact NodeKind.eq_of_begins hbegins hbegins'

theorem cutsAlike_number {value value' : String} (hvalue : Token.WellFormed ⟨.number, value⟩)
    (hvalue' : Token.WellFormed ⟨.number, value'⟩) :
    CutsAlike (callChars layout) (number value) (number value') := by
  intro rest tail hrest htail h
  rw [callChars_number, callChars_number] at h
  obtain ⟨hsame, hend⟩ := run_append_inj hvalue.2 hvalue'.2 hrest htail h
  cases String.toList_inj.mp hsame
  exact ⟨rfl, hend⟩

theorem cutsAlike_string {value value' : String} (hvalue : Token.WellFormed ⟨.string, value⟩)
    (hvalue' : Token.WellFormed ⟨.string, value'⟩) :
    CutsAlike (callChars layout) (string value) (string value') := by
  intro rest tail _ _ h
  simp only [callChars_string, List.cons_append, List.append_assoc, List.nil_append] at h
  have hquote (more : List Char) : EndsRun (· != Token.quote) (Token.quote :: more) := by simp
  obtain ⟨hsame, hend⟩ := run_append_inj (Token.bne_quote_of_notMem hvalue)
    (Token.bne_quote_of_notMem hvalue') (hquote _) (hquote _) (List.cons.inj h).2
  cases String.toList_inj.mp hsame
  exact ⟨rfl, (List.cons.inj hend).2⟩

/-- A call is cut off if its parameters can be. -/
theorem cutsAlike_call (hlayout : layout.Separates) {name name' : String}
    {params params' : List Form} (hname : Token.WellFormed ⟨.name, name⟩)
    (hname' : Token.WellFormed ⟨.name, name'⟩) (hparams : ∀ param ∈ params, param.WellFormed)
    (hparams' : ∀ param ∈ params', param.WellFormed)
    (hcut : ∀ param ∈ params, ∀ other ∈ params', CutsAlike (callChars layout) param other) :
    CutsAlike (callChars layout) (call name params) (call name' params') := by
  intro rest tail _ _ h
  simp only [callChars_call, List.append_assoc, List.cons_append, List.nil_append] at h
  have hopen (more : List Char) : EndsRun Char.isAlpha ('(' :: more) := by simp
  obtain ⟨hsame, hmore⟩ := run_append_inj hname.2 hname'.2 (hopen _) (hopen _) h
  cases String.toList_inj.mp hsame
  have hne := mt String.toList_eq_nil_iff.mp hlayout.argument_ne
  have hclose := endsItems_close hne hlayout.argument_neutral
  obtain ⟨rfl, hend⟩ := intercalate_append_inj hlayout.argument_neutral hcut (hclose _) (hclose _)
    (fun param hparam more => (hparams param hparam).callChars_append_ne_close more _)
    (fun param hparam more => (hparams' param hparam).callChars_append_ne_close more _)
    (List.cons.inj hmore).2
  exact ⟨rfl, (List.cons.inj hend).2⟩

/-- The text of a well-formed form tells where it ends and which form it is of. -/
theorem cutsAlike_callChars (hlayout : layout.Separates) (hform : form.WellFormed)
    (hother : other.WellFormed) : CutsAlike (callChars layout) form other := by
  induction form generalizing other with
  | number value =>
      intro rest tail hrest htail h
      have hkind := kind_eq_of_append hform hother h
      cases hother with
      | number hvalue' =>
          cases hform with
          | number hvalue => exact cutsAlike_number hvalue hvalue' rest tail hrest htail h
      | string _ => cases hkind
      | call _ _ => cases hkind
  | string value =>
      intro rest tail hrest htail h
      have hkind := kind_eq_of_append hform hother h
      cases hother with
      | number _ => cases hkind
      | string hvalue' =>
          cases hform with
          | string hvalue => exact cutsAlike_string hvalue hvalue' rest tail hrest htail h
      | call _ _ => cases hkind
  | call name params ih =>
      intro rest tail hrest htail h
      have hkind := kind_eq_of_append hform hother h
      cases hother with
      | number _ => cases hkind
      | string _ => cases hkind
      | call hname' hparams' =>
          cases hform with
          | call hname hparams =>
              refine cutsAlike_call hlayout hname hname' hparams hparams' ?_ rest tail hrest htail h
              intro param hparam other hother
              exact ih param hparam (hparams param hparam) (hparams' other hother)

/-- What a form in the body of a program has behind its text. -/
def lineEnd (layout : Layout) (form : Form) : List Char :=
  if form.kind = .call then layout.statementTerminator.toList else []

theorem lineChars_eq_append (layout : Layout) (form : Form) :
    form.lineChars layout = form.callChars layout ++ form.lineEnd layout := by
  cases form <;> simp [lineChars, callChars, lineText, lineEnd, kind]

theorem mem_terminator_of_mem_lineEnd {ch : Char} (h : ch ∈ form.lineEnd layout) :
    ch ∈ layout.statementTerminator.toList := by
  unfold lineEnd at h
  split at h
  · exact h
  · cases h

theorem cutsAlike_lineChars (hlayout : layout.Separates) (hform : form.WellFormed)
    (hother : other.WellFormed) : CutsAlike (lineChars layout) form other := by
  have hends (form : Form) {rest : List Char} (hrest : EndsRun Char.isDigit rest) :
      EndsRun Char.isDigit (form.lineEnd layout ++ rest) := by
    refine endsRun_isDigit_append ?_ fun _ => hrest
    intro ch hch
    exact hlayout.terminator_neutral ch (mem_terminator_of_mem_lineEnd hch)
  intro rest tail hrest htail h
  rw [lineChars_eq_append, lineChars_eq_append, List.append_assoc, List.append_assoc] at h
  obtain ⟨rfl, hmore⟩ := cutsAlike_callChars hlayout hform hother _ _ (hends form hrest)
    (hends other htail) h
  exact ⟨rfl, List.append_cancel_left hmore⟩

theorem WellFormed.lineChars_append_ne_nil (h : form.WellFormed) (more : List Char) :
    form.lineChars layout ++ more ≠ [] := by
  obtain ⟨ch, _, htext, -⟩ := h.exists_callChars_eq_cons layout
  simp [lineChars_eq_append, htext]

end Form

theorem Program.toList_callText (layout : Layout) (p : Program) :
    (p.callText layout).toList =
      layout.lineSeparator.toList.intercalate (p.body.map (Form.lineChars layout)) := by
  have hbody : p.body.map (String.toList ∘ Form.lineText layout) =
      p.body.map (Form.lineChars layout) := rfl
  simp [callText, hbody]

/-- Well-formed programs of the same text are the same. -/
theorem Program.callText_inj {layout : Layout} (hlayout : layout.Separates) {p q : Program}
    (hp : ∀ form ∈ p.body, form.WellFormed) (hq : ∀ form ∈ q.body, form.WellFormed)
    (h : p.callText layout = q.callText layout) : p = q := by
  have hne := mt String.toList_eq_nil_iff.mp hlayout.line_ne
  have htext := congrArg (String.toList · ++ []) h
  simp only [toList_callText] at htext
  obtain ⟨hbody, -⟩ := intercalate_append_inj hlayout.line_neutral
    (fun form hform other hother =>
      Form.cutsAlike_lineChars hlayout (hp form hform) (hq other hother))
    (endsItems_nil hne) (endsItems_nil hne)
    (fun form hform more => (hp form hform).lineChars_append_ne_nil more)
    (fun form hform more => (hq form hform).lineChars_append_ne_nil more) htext
  cases p
  cases hbody
  rfl

/-- A text that is read in strict mode has a well-formed program. -/
theorem ReadsAs.wellFormed {text : String} {program : Program} (h : ReadsAs true text program) :
    ∀ form ∈ program.body, form.WellFormed := by
  obtain ⟨tokens, hscan, hread⟩ := h
  have htokens := ((Token.ofText_eq_ok_iff text tokens).mp hscan).wellFormed
  exact (Program.derivesAll_of_ofTokens hread).wellFormed htokens

/-- In strict mode, and with separators that keep things apart, texts that compile to the same
output are read as the same program. -/
theorem compile_unambiguous {config : Config} (hstrict : config.strictCallee = true)
    (hlayout : config.toLayout.Separates) {text other output : String}
    (htext : compile config text = .ok output) (hother : compile config other = .ok output) :
    ∃ program, ReadsAs true text program ∧ ReadsAs true other program := by
  rw [compile_eq_ok_iff, hstrict] at htext hother
  obtain ⟨program, hread, rfl⟩ := htext
  obtain ⟨program', hread', hsame⟩ := hother
  cases Program.callText_inj hlayout hread'.wellFormed hread.wellFormed hsame
  exact ⟨program, hread, hread'⟩

/-- The default layout keeps things apart, also where a string looks like rendered code. -/
theorem compile_unambiguous_default :
    ({} : Layout).Separates ∧
      compile { strictCallee := true } "(f 1 \"), g(\") (g) 2" =
        .ok "f(1, \"), g(\");\ng();\n2" ∧
      compile { strictCallee := true } "\n( f\t1\"), g(\")(g)2 " =
        .ok "f(1, \"), g(\");\ng();\n2" ∧
      ∃ program, ReadsAs true "(f 1 \"), g(\") (g) 2" program ∧
        ReadsAs true "\n( f\t1\"), g(\")(g)2 " program := by
  have hlayout : ({} : Layout).Separates := by
    constructor
    case argument_ne => decide
    case line_ne => decide
    all_goals simp [isNeutral, Token.quote]
  have htext : compile { strictCallee := true } "(f 1 \"), g(\") (g) 2" =
      .ok "f(1, \"), g(\");\ng();\n2" := by
    simp only [compile_eq_result_ofTokens, Compilation.result_ofTokens]
    decide +kernel
  have hother : compile { strictCallee := true } "\n( f\t1\"), g(\")(g)2 " =
      .ok "f(1, \"), g(\");\ng();\n2" := by
    simp only [compile_eq_result_ofTokens, Compilation.result_ofTokens]
    decide +kernel
  exact ⟨hlayout, htext, hother, compile_unambiguous rfl hlayout htext hother⟩

end CallForms

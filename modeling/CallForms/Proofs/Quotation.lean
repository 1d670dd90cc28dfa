import CallForms.Proofs.Outline
import CallForms.Proofs.Spelling
import CallForms.Proofs.Unambiguity

/-!
What stands between quotes passes through a compilation and touches nothing else.

Scanning, reading and rendering are followed with the outline of a text and the contents of its
strings apart. In strict mode the contents come out as they went in, and the outline of the output
depends on the outline of the text alone. So the contents can be exchanged for any others, and
nothing changes outside of the quotes.
-/

namespace CallForms

namespace Token

/-- The token with nothing in it, if it is a string. -/
def hollow (t : Token) : Token :=
  if t.kind = .string then ⟨.string, ""⟩ else t

def content? (t : Token) : Option (List Char) :=
  if t.kind = .string then some t.value.toList else none

theorem eq_of_hollow_eq {t u : Token} (h : t.hollow = u.hollow) (hu : u.kind ≠ .string) :
    t = u := by
  by_cases ht : t.kind = .string
  · simp only [hollow, ht, hu, if_true, if_false] at h
    rw [← h] at hu
    exact absurd rfl hu
  · simpa [hollow, ht, hu] using h

theorem exists_eq_of_hollow_eq {t : Token} {value : String}
    (h : t.hollow = (⟨.string, value⟩ : Token).hollow) : ∃ value', t = ⟨.string, value'⟩ := by
  by_cases ht : t.kind = .string
  · exact ⟨t.value, by rw [← ht]⟩
  · simp only [hollow, ht, if_false, if_true] at h
    simp [h] at ht

theorem WellFormed.quote_notMem_spelling {t : Token} (ht : t.WellFormed)
    (hkind : t.kind ≠ .string) : quote ∉ t.spelling := by
  obtain ⟨kind, value⟩ := t
  cases kind with
  | paren => rcases ht with rfl | rfl <;> simp [spelling, quote]
  | string => exact absurd rfl hkind
  | number =>
      intro hquote
      exact (not_delimiter_of_isDigit (ht.2 quote hquote)).2.2 rfl
  | name =>
      intro hquote
      exact (not_delimiter_of_isAlpha (ht.2 quote hquote)).2.2.1 rfl

end Token

theorem IsGap.quote_notMem {gap : List Char} (hgap : IsGap gap) : Token.quote ∉ gap := by
  intro hquote
  have hneutral := isNeutral_of_isSeparator (hgap _ hquote)
  simp [isNeutral] at hneutral

/-- A text that scans fills an outline with the contents of its strings, and every other filling of
the outline scans to the same tokens but for those contents. -/
theorem Scans.exists_filled {offset : Nat} {text : List Char} {tokens : List Token}
    (h : Scans offset text tokens none) :
    ∃ outline, Filled outline (tokens.filterMap Token.content?) text ∧
      ∀ contents other, Filled outline contents other →
        ∃ tokens', Spells tokens' other ∧
          tokens'.map Token.hollow = tokens.map Token.hollow := by
  generalize hend : (none : Option LexError) = end? at h
  induction h with
  | @nothing offset gap hgap =>
      refine ⟨gap.map some, .of_notMem hgap.quote_notMem, ?_⟩
      intro contents other hother
      rw [← List.append_nil (gap.map some)] at hother
      obtain ⟨rest, rfl, hrest⟩ := hother.exists_append
      cases hrest
      rw [List.append_nil]
      exact ⟨[], .nothing hgap, rfl⟩
  | @token offset gap rest t ts _ hgap ht hrun _ ih =>
      obtain ⟨outline, hfilled, hagain⟩ := ih hend
      by_cases hkind : t.kind = .string
      · obtain ⟨kind, value⟩ := t
        cases hkind
        refine ⟨gap.map some ++ none :: outline, ?_, ?_⟩
        · have hall := (Filled.of_notMem hgap.quote_notMem).append (.string ht hfilled)
          simpa [Token.spelling, Token.content?] using hall
        · intro contents other hother
          obtain ⟨rest', rfl, hrest⟩ := hother.exists_append
          cases hrest with
          | @string _ _ text content hcontent hmore =>
              have hstring : Token.WellFormed ⟨.string, String.ofList content⟩ := by
                simpa [Token.WellFormed] using hcontent
              obtain ⟨ts', hspells, hts⟩ := hagain _ _ hmore
              refine ⟨⟨.string, String.ofList content⟩ :: ts', ?_, ?_⟩
              · have hall := Spells.cons hgap hstring (endsRun_string text) hspells
                simpa [Token.spelling] using hall
              · simp [hts, Token.hollow]
      · refine ⟨gap.map some ++ (t.spelling.map some ++ outline), ?_, ?_⟩
        · have hspelling := Filled.of_notMem (ht.quote_notMem_spelling hkind)
          have hall := (Filled.of_notMem hgap.quote_notMem).append (hspelling.append hfilled)
          simpa [Token.content?, hkind] using hall
        · intro contents other hother
          obtain ⟨rest', rfl, hrest⟩ := hother.exists_append
          obtain ⟨rest'', rfl, hmore⟩ := hrest.exists_append
          obtain ⟨ts', hspells, hts⟩ := hagain _ _ hmore
          have hrun' : EndsRun t.kind.continues rest'' := by
            rw [EndsRun, ← hfilled.head?_eq hmore]
            exact hrun
          exact ⟨t :: ts', .cons hgap ht hrun' hspells, by simp [hts]⟩
  | foreign _ _ => cases hend
  | unclosed _ _ => cases hend

namespace Form

mutual

/-- The form with nothing in its strings. -/
def hollow : Form → Form
  | number value => number value
  | string _ => string ""
  | call name params => call name (hollowAll params)

def hollowAll : List Form → List Form
  | [] => []
  | form :: rest => form.hollow :: hollowAll rest

end

theorem hollowAll_eq_map (forms : List Form) : hollowAll forms = forms.map hollow := by
  induction forms with
  | nil => rfl
  | cons form rest ih => simp [hollowAll, ih]

mutual

/-- The contents of the strings in a form, from left to right. -/
def contents : Form → List (List Char)
  | number _ => []
  | string value => [value.toList]
  | call _ params => contentsAll params

def contentsAll : List Form → List (List Char)
  | [] => []
  | form :: rest => form.contents ++ contentsAll rest

end

theorem contentsAll_eq_flatMap (forms : List Form) :
    contentsAll forms = forms.flatMap contents := by
  induction forms with
  | nil => rfl
  | cons form rest ih => simp [contentsAll, ih]

mutual

/-- The outline of a form's text. -/
def outline (layout : Layout) : Form → List (Option Char)
  | number value => value.toList.map some
  | string _ => [none]
  | call name params =>
      name.toList.map some ++ some '(' ::
        ((layout.argumentSeparator.toList.map some).intercalate (outlines layout params) ++
          [some ')'])

def outlines (layout : Layout) : List Form → List (List (Option Char))
  | [] => []
  | form :: rest => form.outline layout :: outlines layout rest

end

theorem outlines_eq_map (layout : Layout) (forms : List Form) :
    outlines layout forms = forms.map (outline layout) := by
  induction forms with
  | nil => rfl
  | cons form rest ih => simp [outlines, ih]

/-- The outline of a form's text in the body of a program. -/
def lineOutline (layout : Layout) (form : Form) : List (Option Char) :=
  form.outline layout ++ (form.lineEnd layout).map some

theorem outline_hollow (layout : Layout) (form : Form) :
    form.hollow.outline layout = form.outline layout := by
  induction form with
  | number value => rfl
  | string value => rfl
  | call name params ih =>
      have hparams : params.map (outline layout ∘ hollow) = params.map (outline layout) :=
        List.map_congr_left ih
      simp [hollow, outline, outlines_eq_map, hollowAll_eq_map, hparams]

theorem lineOutline_hollow (layout : Layout) (form : Form) :
    form.hollow.lineOutline layout = form.lineOutline layout := by
  have hend : form.hollow.lineEnd layout = form.lineEnd layout := by
    cases form <;> rfl
  rw [lineOutline, lineOutline, outline_hollow, hend]

end Form

/-- There is no quote in the separators. -/
structure Layout.Unquoted (layout : Layout) : Prop where
  argument : Token.quote ∉ layout.argumentSeparator.toList
  terminator : Token.quote ∉ layout.statementTerminator.toList
  line : Token.quote ∉ layout.lineSeparator.toList

namespace Form.WellFormed

variable {layout : Layout} {form : Form}

theorem filled_callChars (hlayout : layout.Unquoted) (h : form.WellFormed) :
    Filled (form.outline layout) form.contents (form.callChars layout) := by
  induction form with
  | number value =>
      cases h with
      | number ht =>
          rw [callChars_number]
          exact .of_notMem (ht.quote_notMem_spelling (by simp))
  | string value =>
      cases h with
      | string ht =>
          rw [callChars_string]
          exact .string ht .nil
  | call name params ih =>
      cases h with
      | call hname hparams =>
          have hfilled : ∀ param ∈ params,
              Filled (param.outline layout) param.contents (param.callChars layout) :=
            fun param hmem => ih param hmem (hparams param hmem)
          have hcallee : Filled (name.toList.map some) [] name.toList :=
            .of_notMem (hname.quote_notMem_spelling (by simp))
          have hopen : Filled [some '('] [] ['('] := .char (by decide) .nil
          have hclose : Filled [some ')'] [] [')'] := .char (by decide) .nil
          have hinner := Filled.intercalate hlayout.argument hfilled
          have hall := hcallee.append (hopen.append (hinner.append hclose))
          simpa [outline, outlines_eq_map, contents, contentsAll_eq_flatMap, callChars_call]
            using hall

theorem filled_lineChars (hlayout : layout.Unquoted) (h : form.WellFormed) :
    Filled (form.lineOutline layout) form.contents (form.lineChars layout) := by
  have hend : Token.quote ∉ form.lineEnd layout :=
    mt mem_terminator_of_mem_lineEnd hlayout.terminator
  rw [lineChars_eq_append]
  simpa [lineOutline] using (h.filled_callChars hlayout).append (.of_notMem hend)

end Form.WellFormed

namespace Program

def outline (layout : Layout) (p : Program) : List (Option Char) :=
  (layout.lineSeparator.toList.map some).intercalate (p.body.map (Form.lineOutline layout))

theorem filled_callText {layout : Layout} (hlayout : layout.Unquoted) {p : Program}
    (hp : ∀ form ∈ p.body, form.WellFormed) :
    Filled (p.outline layout) (Form.contentsAll p.body) (p.callText layout).toList := by
  rw [toList_callText, Form.contentsAll_eq_flatMap]
  exact .intercalate hlayout.line fun form hform => (hp form hform).filled_lineChars hlayout

end Program

mutual

theorem Derives.contents_eq {tokens : List Token} {form : Form} :
    Derives true tokens form → tokens.filterMap Token.content? = form.contents
  | .number value => rfl
  | .string value => rfl
  | @Derives.call _ ⟨kind, value⟩ tokens params hname hparams => by
      cases (hname rfl : kind = .name)
      have hinner := hparams.contents_eq
      simp [Token.content?, Token.openParen, Token.closeParen, Form.contents, ← hinner]

/-- The strings among the tokens are those in the forms. -/
theorem DerivesAll.contents_eq {tokens : List Token} {forms : List Form} :
    DerivesAll true tokens forms → tokens.filterMap Token.content? = Form.contentsAll forms
  | .nil => rfl
  | .cons hform hforms => by
      rw [List.filterMap_append, hform.contents_eq, hforms.contents_eq, Form.contentsAll]

end

mutual

theorem Derives.exists_hollow {tokens : List Token} {form : Form} :
    Derives true tokens form → ∀ {tokens' : List Token},
      tokens'.map Token.hollow = tokens.map Token.hollow →
        ∃ form', Derives true tokens' form' ∧ form'.hollow = form.hollow
  | .number value, tokens', h => by
      obtain ⟨t, rfl, ht⟩ := List.map_eq_singleton_iff.mp h
      cases Token.eq_of_hollow_eq ht (by simp)
      exact ⟨_, .number value, rfl⟩
  | .string value, tokens', h => by
      obtain ⟨t, rfl, ht⟩ := List.map_eq_singleton_iff.mp h
      obtain ⟨value', rfl⟩ := Token.exists_eq_of_hollow_eq ht
      exact ⟨_, .string value', rfl⟩
  | @Derives.call _ name tokens params hname hparams, tokens', h => by
      simp only [List.map_cons, List.map_append, List.map_nil] at h
      obtain ⟨opening, rest, rfl, hopening, hrest⟩ := List.map_eq_cons_iff.mp h
      obtain ⟨callee, rest, rfl, hcallee, hrest⟩ := List.map_eq_cons_iff.mp hrest
      obtain ⟨inner, last, rfl, hinner, hlast⟩ := List.map_eq_append_iff.mp hrest
      obtain ⟨closing, rfl, hclosing⟩ := List.map_eq_singleton_iff.mp hlast
      cases Token.eq_of_hollow_eq hopening (by simp [Token.openParen])
      cases Token.eq_of_hollow_eq hcallee (by simp [hname rfl])
      cases Token.eq_of_hollow_eq hclosing (by simp [Token.closeParen])
      obtain ⟨params', hderives, hhollow⟩ := hparams.exists_hollow hinner
      refine ⟨_, .call hname hderives, ?_⟩
      rw [Form.hollow, Form.hollow, Form.hollowAll_eq_map, Form.hollowAll_eq_map, hhollow]

/-- Tokens that differ in their strings only derive forms that differ in their strings only. -/
theorem DerivesAll.exists_hollow {tokens : List Token} {forms : List Form} :
    DerivesAll true tokens forms → ∀ {tokens' : List Token},
      tokens'.map Token.hollow = tokens.map Token.hollow →
        ∃ forms', DerivesAll true tokens' forms' ∧
          forms'.map Form.hollow = forms.map Form.hollow
  | .nil, tokens', h => by
      cases List.map_eq_nil_iff.mp h
      exact ⟨[], .nil, rfl⟩
  | .cons hform hforms, tokens', h => by
      rw [List.map_append] at h
      obtain ⟨first, rest, rfl, hfirst, hrest⟩ := List.map_eq_append_iff.mp h
      obtain ⟨form', hform', hhollow⟩ := hform.exists_hollow hfirst
      obtain ⟨forms', hforms', hhollows⟩ := hforms.exists_hollow hrest
      exact ⟨form' :: forms', .cons hform' hforms', by simp [hhollow, hhollows]⟩

end

theorem Program.outline_eq_of_hollow {layout : Layout} {p q : Program}
    (h : p.body.map Form.hollow = q.body.map Form.hollow) :
    p.outline layout = q.outline layout := by
  have hlines (p : Program) : p.body.map (Form.lineOutline layout) =
      (p.body.map Form.hollow).map (Form.lineOutline layout) := by
    simp [Function.comp_def, Form.lineOutline_hollow]
  rw [outline, outline, hlines p, hlines q, h]

/-- In strict mode, and with no quote in the separators, the contents of strings stay between their
quotes. The output has the same segments inside of quotes as the text, and if those of the text are
exchanged, the new text compiles and its output has the same segments outside. -/
theorem compile_contents_stay_inside {config : Config} (hstrict : config.strictCallee = true)
    (hlayout : config.toLayout.Unquoted) {text output : String}
    (h : compile config text = .ok output) :
    (segments text.toList).length % 2 = 1 ∧
      (segments output.toList).length = (segments text.toList).length ∧
      inside output.toList = inside text.toList ∧
      ∀ other : String, (segments other.toList).length = (segments text.toList).length →
        outside other.toList = outside text.toList →
          ∃ output', compile config other = .ok output' ∧
            outside output'.toList = outside output.toList := by
  rw [compile_eq_ok_iff, hstrict] at h
  obtain ⟨program, hreads, rfl⟩ := h
  have hprogram := Program.filled_callText hlayout hreads.wellFormed
  obtain ⟨tokens, hscan, hread⟩ := hreads
  have hderives := Program.derivesAll_of_ofTokens hread
  obtain ⟨outline, htext, hagain⟩ := ((Token.ofText_eq_ok_iff text tokens).mp hscan).exists_filled
  rw [hderives.contents_eq] at htext
  refine ⟨?_, ?_, ?_, ?_⟩
  · rw [htext.length_segments]
    omega
  · rw [hprogram.length_segments, htext.length_segments]
  · rw [hprogram.inside_eq, htext.inside_eq]
  · intro other hlength houtside
    have hinside : (inside other.toList).length = (Form.contentsAll program.body).length := by
      rw [length_segments, length_segments, houtside, htext.inside_eq] at hlength
      omega
    obtain ⟨tokens', hspells, htokens⟩ := hagain _ _ (htext.of_outside_eq houtside hinside)
    obtain ⟨forms', hforms', hhollow⟩ := hderives.exists_hollow htokens
    have hreads' : ReadsAs true other ⟨forms'⟩ :=
      ⟨tokens', (Token.ofText_eq_ok_iff other tokens').mpr (hspells.scans 0), hforms'.ofTokens_eq⟩
    refine ⟨Program.callText config.toLayout ⟨forms'⟩, ?_, ?_⟩
    · rw [compile_eq_ok_iff, hstrict]
      exact ⟨⟨forms'⟩, hreads', rfl⟩
    · have hother := Program.filled_callText hlayout hreads'.wellFormed
      rw [Program.outline_eq_of_hollow hhollow] at hother
      exact hother.outside_eq hprogram

/-- A string that looks like the end of its call is exchanged for one with a line break. -/
theorem compile_contents_stay_inside_call :
    Layout.Unquoted {} ∧
      compile { strictCallee := true } "(f \"), g(\" (g \"\"))" =
        .ok "f(\"), g(\", g(\"\"));" ∧
      inside "f(\"), g(\", g(\"\"));".toList = inside "(f \"), g(\" (g \"\"))".toList ∧
      ∃ output', compile { strictCallee := true } "(f \"\n\" (g \"é\"))" = .ok output' ∧
        outside output'.toList = outside "f(\"), g(\", g(\"\"));".toList := by
  have hlayout : Layout.Unquoted {} := by
    constructor <;> simp [Token.quote]
  have h : compile { strictCallee := true } "(f \"), g(\" (g \"\"))" =
      .ok "f(\"), g(\", g(\"\"));" := by
    simp only [compile_eq_result_ofTokens, Compilation.result_ofTokens]
    decide +kernel
  obtain ⟨-, -, hinside, hother⟩ := compile_contents_stay_inside rfl hlayout h
  exact ⟨hlayout, h, hinside,
    hother "(f \"\n\" (g \"é\"))" (by decide +kernel) (by decide +kernel)⟩

end CallForms

import CallForms.Text.Segments

/-!
A text as an outline that is filled in: characters, and open places for the contents of strings.

The contents are the segments inside of the quotes. The outline says the same as the segments
outside of them, which makes it the part of a text that a change between quotes leaves alone.
-/

namespace CallForms

/-- The text is the outline with the contents filled in, each between quotes, where the outline is
open. -/
inductive Filled : (outline : List (Option Char)) → (contents : List (List Char)) →
    List Char → Prop where
  | nil : Filled [] [] []
  | char {outline : List (Option Char)} {contents : List (List Char)} {text : List Char}
      {ch : Char} :
      ch ≠ Token.quote → Filled outline contents text →
      Filled (some ch :: outline) contents (ch :: text)
  | string {outline : List (Option Char)} {contents : List (List Char)}
      {text content : List Char} :
      Token.quote ∉ content → Filled outline contents text →
      Filled (none :: outline) (content :: contents)
        (Token.quote :: (content ++ Token.quote :: text))

namespace Filled

variable {outline outline' : List (Option Char)} {contents contents' : List (List Char)}
  {text text' : List Char}

theorem append (h : Filled outline contents text) (h' : Filled outline' contents' text') :
    Filled (outline ++ outline') (contents ++ contents') (text ++ text') := by
  induction h with
  | nil => exact h'
  | char hch _ ih => exact .char hch ih
  | string hcontent _ ih => simpa using string hcontent ih

theorem of_notMem (h : Token.quote ∉ text) : Filled (text.map some) [] text := by
  induction text with
  | nil => exact .nil
  | cons ch text ih =>
      rw [List.mem_cons, not_or] at h
      exact .char (Ne.symm h.1) (ih h.2)

theorem intercalate {α : Type} {outline : α → List (Option Char)}
    {contents : α → List (List Char)} {text : α → List Char} {separator : List Char}
    (hseparator : Token.quote ∉ separator) :
    ∀ {items : List α}, (∀ item ∈ items, Filled (outline item) (contents item) (text item)) →
      Filled ((separator.map some).intercalate (items.map outline)) (items.flatMap contents)
        (separator.intercalate (items.map text))
  | [], _ => by simpa using nil
  | [item], h => by simpa using h item (by simp)
  | item :: next :: rest, h => by
      rw [List.forall_mem_cons] at h
      have hmore := intercalate hseparator h.2
      have hall := (h.1.append (of_notMem hseparator)).append hmore
      simpa using hall

/-- Two fillings of an outline begin alike. -/
theorem head?_eq (h : Filled outline contents text) (h' : Filled outline contents' text') :
    text.head? = text'.head? := by
  cases h <;> cases h' <;> rfl

/-- A part of the outline without open places is in the text as it is. -/
theorem exists_append {run : List Char} (h : Filled (run.map some ++ outline) contents text) :
    ∃ rest, text = run ++ rest ∧ Filled outline contents rest := by
  induction run generalizing text with
  | nil => exact ⟨text, rfl, h⟩
  | cons ch run ih =>
      cases h with
      | char _ hmore =>
          obtain ⟨rest, rfl, hrest⟩ := ih hmore
          exact ⟨rest, rfl, hrest⟩

theorem inside_eq (h : Filled outline contents text) : inside text = contents := by
  induction h with
  | nil => rfl
  | char hch _ ih => rw [inside_cons hch, ih]
  | string hcontent _ ih => rw [inside_quote, outside_append_quote hcontent, ih]

theorem outside_eq (h : Filled outline contents text) (h' : Filled outline contents' text') :
    outside text = outside text' := by
  induction h generalizing contents' text' with
  | nil =>
      cases h'
      rfl
  | char hch _ ih =>
      cases h' with
      | char _ hmore => rw [outside_cons hch, outside_cons hch, ih hmore]
  | string hcontent _ ih =>
      cases h' with
      | string hcontent' hmore =>
          rw [outside_quote, outside_quote, inside_append_quote hcontent,
            inside_append_quote hcontent', ih hmore]

/-- There is one segment more outside of the quotes than inside. -/
theorem length_outside (h : Filled outline contents text) :
    (outside text).length = contents.length + 1 := by
  induction h with
  | nil => rfl
  | char hch _ ih => rw [outside_cons hch, List.length_modifyHead, ih]
  | string hcontent _ ih =>
      rw [outside_quote, inside_append_quote hcontent, List.length_cons, ih, List.length_cons]

theorem length_segments (h : Filled outline contents text) :
    (segments text).length = 2 * contents.length + 1 := by
  rw [CallForms.length_segments, h.length_outside, h.inside_eq]
  omega

/-- A text with the same segments outside of its quotes, and as many inside, fills the same
outline. -/
theorem of_outside_eq (h : Filled outline contents text) {other : List Char}
    (houtside : outside other = outside text) (hlength : (inside other).length = contents.length) :
    Filled outline (inside other) other := by
  induction h generalizing other with
  | nil =>
      cases other with
      | nil => exact .nil
      | cons ch rest =>
          obtain ⟨segment, more, hrest⟩ := List.exists_cons_of_ne_nil (outside_ne_nil rest)
          by_cases hch : ch = Token.quote
          · simp [hch, hrest] at hlength
          · simp [outside_cons hch, hrest] at houtside
  | @char outline contents text ch hch _ ih =>
      obtain ⟨segment, more, htext⟩ := List.exists_cons_of_ne_nil (outside_ne_nil text)
      rw [outside_cons hch, htext, List.modifyHead_cons] at houtside
      cases other with
      | nil => simp at houtside
      | cons first rest =>
          by_cases hfirst : first = Token.quote
          · simp [hfirst] at houtside
          · obtain ⟨segment', more', hrest⟩ := List.exists_cons_of_ne_nil (outside_ne_nil rest)
            rw [outside_cons hfirst, hrest, List.modifyHead_cons] at houtside
            simp only [List.cons.injEq] at houtside
            obtain ⟨⟨rfl, rfl⟩, rfl⟩ := houtside
            rw [inside_cons hch] at hlength ⊢
            exact .char hch (ih (hrest.trans htext.symm) hlength)
  | @string outline contents text content hcontent _ ih =>
      rw [outside_quote, inside_append_quote hcontent] at houtside
      cases other with
      | nil => simp at hlength
      | cons first rest =>
          by_cases hfirst : first = Token.quote
          · subst hfirst
            simp only [outside_quote, List.cons.injEq, true_and] at houtside
            by_cases hquote : Token.quote ∈ rest
            · obtain ⟨content', rest', rfl, hcontent'⟩ := List.eq_append_cons_of_mem hquote
              rw [inside_append_quote hcontent'] at houtside
              rw [inside_quote, outside_append_quote hcontent'] at hlength ⊢
              exact .string hcontent' (ih houtside (by simpa using hlength))
            · rw [inside_of_notMem hquote] at houtside
              exact absurd houtside.symm (outside_ne_nil text)
          · obtain ⟨segment, more, hrest⟩ := List.exists_cons_of_ne_nil (outside_ne_nil rest)
            simp [outside_cons hfirst, hrest] at houtside

end Filled

end CallForms

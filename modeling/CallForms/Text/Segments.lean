import CallForms.Token.Basic

/-!
A text cut at its quotes.

In a text whose quotes come in pairs the segments at even places stand outside of the quotes and
those at odd places inside. At a quote the two change roles.
-/

namespace CallForms

mutual

/-- The first item and every second one behind it. -/
def evenPlaces {α : Type} : List α → List α
  | [] => []
  | item :: rest => item :: oddPlaces rest

/-- The second item and every second one behind it. -/
def oddPlaces {α : Type} : List α → List α
  | [] => []
  | _ :: rest => evenPlaces rest

end

/-- The parts of a text between its quotes, with those in front of the first quote and behind the
last one. -/
def segments (text : List Char) : List (List Char) :=
  text.splitOn Token.quote

def outside (text : List Char) : List (List Char) :=
  evenPlaces (segments text)

def inside (text : List Char) : List (List Char) :=
  oddPlaces (segments text)

@[simp] theorem length_evenPlaces_add_length_oddPlaces {α : Type} (items : List α) :
    (evenPlaces items).length + (oddPlaces items).length = items.length := by
  induction items with
  | nil => rfl
  | cons item rest ih =>
      simp only [evenPlaces, oddPlaces, List.length_cons]
      omega

theorem length_segments (text : List Char) :
    (segments text).length = (outside text).length + (inside text).length := by
  simp [outside, inside]

section Segments

variable {ch : Char} {text content : List Char}

@[simp] theorem outside_nil : outside [] = [[]] := rfl

@[simp] theorem inside_nil : inside [] = [] := rfl

theorem outside_ne_nil (text : List Char) : outside text ≠ [] := by
  have hne := List.splitOn_ne_nil Token.quote text
  rw [outside, segments]
  cases hsegments : text.splitOn Token.quote with
  | nil => exact absurd hsegments hne
  | cons segment rest => simp [evenPlaces]

@[simp] theorem outside_quote : outside (Token.quote :: text) = [] :: inside text := by
  simp [outside, inside, segments, List.splitOn_cons_eq_if_modifyHead, evenPlaces]

@[simp] theorem inside_quote : inside (Token.quote :: text) = outside text := by
  simp [outside, inside, segments, List.splitOn_cons_eq_if_modifyHead, oddPlaces]

theorem outside_cons (h : ch ≠ Token.quote) :
    outside (ch :: text) = (outside text).modifyHead (ch :: ·) := by
  simp only [outside, segments, List.splitOn_cons_eq_if_modifyHead, beq_iff_eq, h, if_false]
  cases text.splitOn Token.quote <;> simp [evenPlaces]

theorem inside_cons (h : ch ≠ Token.quote) : inside (ch :: text) = inside text := by
  simp only [inside, segments, List.splitOn_cons_eq_if_modifyHead, beq_iff_eq, h, if_false]
  cases text.splitOn Token.quote <;> simp [oddPlaces]

theorem inside_of_notMem (h : Token.quote ∉ text) : inside text = [] := by
  simp [inside, segments, List.splitOn_eq_singleton h, oddPlaces, evenPlaces]

theorem outside_append_quote (h : Token.quote ∉ content) :
    outside (content ++ Token.quote :: text) = content :: inside text := by
  induction content with
  | nil => exact outside_quote
  | cons ch content ih =>
      rw [List.mem_cons, not_or] at h
      rw [List.cons_append, outside_cons (Ne.symm h.1), ih h.2, List.modifyHead_cons]

theorem inside_append_quote (h : Token.quote ∉ content) :
    inside (content ++ Token.quote :: text) = outside text := by
  induction content with
  | nil => exact inside_quote
  | cons ch content ih =>
      rw [List.mem_cons, not_or] at h
      rw [List.cons_append, inside_cons (Ne.symm h.1), ih h.2]

end Segments

end CallForms

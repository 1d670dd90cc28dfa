import CallForms.Text.Character
import CallForms.Token.Basic

/-!
How tokens are spelled: the texts that a list of tokens can be written as.

Any separators may stand in front of, between and behind tokens. They are needed only where two
tokens would otherwise run together into one.
-/

namespace CallForms

namespace Token

def spelling (t : Token) : List Char :=
  match t.kind with
  | .string => quote :: (t.value.toList ++ [quote])
  | .paren | .number | .name => t.value.toList

/-- The payloads that a kind of token can have in a text. -/
def WellFormed (t : Token) : Prop :=
  match t.kind with
  | .paren => t.value = "(" ∨ t.value = ")"
  | .string => quote ∉ t.value.toList
  | .number => t.value ≠ "" ∧ ∀ ch ∈ t.value.toList, ch.isDigit = true
  | .name => t.value ≠ "" ∧ ∀ ch ∈ t.value.toList, ch.isAlpha = true

/-- Whether two neighbours would be read as one token if nothing stood between them. -/
def RunsInto (t next : Token) : Prop :=
  (t.kind = .number ∧ next.kind = .number) ∨ (t.kind = .name ∧ next.kind = .name)

/-- Exchanges every opening parenthesis with the name that follows it. -/
def namesFirst : List Token → List Token
  | t :: name :: ts =>
      if t = openParen ∧ name.kind = .name then
        name :: t :: namesFirst ts
      else
        t :: namesFirst (name :: ts)
  | [t] => [t]
  | [] => []

end Token

def IsGap (text : List Char) : Prop :=
  ∀ ch ∈ text, isSeparator ch = true

@[simp] theorem isGap_nil : IsGap [] := by
  simp [IsGap]

@[simp] theorem isGap_cons (ch : Char) (text : List Char) :
    IsGap (ch :: text) ↔ isSeparator ch = true ∧ IsGap text :=
  List.forall_mem_cons

/-- A text spells tokens if it is their spellings with gaps around them. -/
inductive Spells : List Token → List Char → Prop where
  | nothing {gap : List Char} : IsGap gap → Spells [] gap
  | last {gap tail : List Char} {t : Token} :
      IsGap gap → t.WellFormed → IsGap tail → Spells [t] (gap ++ t.spelling ++ tail)
  | more {gap between rest : List Char} {t next : Token} {ts : List Token} :
      IsGap gap → t.WellFormed → IsGap between → (t.RunsInto next → between ≠ []) →
      Spells (next :: ts) rest →
      Spells (t :: next :: ts) (gap ++ t.spelling ++ (between ++ rest))

end CallForms

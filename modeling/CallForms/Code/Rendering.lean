import CallForms.Code.Basic
import CallForms.Config
import CallForms.Worklist

/-!
Rendering code as text.

Rendering goes through the code once and collects texts: payloads as they are, the delimiters of
calls and strings, and the separators of the layout where they go. Nothing is escaped. A node of a
kind that there is no rule for leaves an error among the texts, and an error is all that is given
then.
-/

namespace CallForms

inductive RenderError where
  /-- There is no rule for nodes of this kind. -/
  | unsupportedNode (kind : String)
  deriving DecidableEq, Repr

def RenderError.message : RenderError → String
  | unsupportedNode kind => "cannot generate code for node kind: " ++ kind

/-- There are rules for the kinds of code, and for no others. -/
def CodeKind.check (kind : CodeKind) : Except RenderError Unit :=
  if kind ∈ Code.kinds then .ok () else .error (.unsupportedNode kind.label)

@[simp] theorem CodeKind.check_eq (kind : CodeKind) : kind.check = .ok () := by
  cases kind <;> rfl

/-- Texts, and errors where there should be a text. -/
abbrev Texts := List (Except RenderError String)

/-- Puts texts together. If there are errors among them, it gives the first one instead. -/
def Texts.join (texts : Texts) : Except RenderError String :=
  (texts.mapM id).map String.join

theorem Texts.join_map_ok (texts : List String) :
    Texts.join (texts.map .ok) = .ok (String.join texts) := by
  have htexts := List.mapM_pure (m := Except RenderError) (l := texts) (f := id)
  rw [List.map_id] at htexts
  rw [Texts.join, List.mapM_map]
  exact congrArg (Except.map String.join) htexts

namespace Code

/-- One level of code: its own texts and those of the layout, and its parts in between. -/
def parts (layout : Layout) : Code → List (Work Code (Except RenderError String))
  | statement expression => [.pending expression, .finished (.ok layout.statementTerminator)]
  | call callee arguments =>
      .finished (.ok callee) :: .finished (.ok "(") ::
        ((arguments.map .pending).intersperse (.finished (.ok layout.argumentSeparator)) ++
          [.finished (.ok ")")])
  | identifier name => [.finished (.ok name)]
  | number value => [.finished (.ok value)]
  | string value => [.finished (.ok "\""), .finished (.ok value), .finished (.ok "\"")]

theorem total_weight_intersperse {β : Type} (weight : Code → Nat) (separator : β)
    (codes : List Code) :
    total (Work.weight weight) ((codes.map .pending).intersperse (.finished separator)) =
      total weight codes := by
  match codes with
  | [] => rfl
  | [code] => simp [Work.weight]
  | code :: next :: rest =>
      have ih := total_weight_intersperse weight separator (next :: rest)
      simp only [List.map_cons, List.intersperse_cons_cons, total_cons] at ih ⊢
      simp [Work.weight, ih]

def expansion (layout : Layout) : Expansion Code (Except RenderError String) where
  expand code :=
    match code.kind.check with
    | .error e => [.finished (.error e)]
    | .ok () => code.parts layout
  weight := count
  weight_expand_lt code := by
    rw [CodeKind.check_eq]
    cases code <;>
      simp [parts, Work.weight, count, total_weight_intersperse, countAll_eq_total]

/-- The texts that a node is rendered as, in order. -/
def texts (layout : Layout) (code : Code) : Texts :=
  (expansion layout).items code

theorem texts_eq_flatten (layout : Layout) (code : Code) :
    code.texts layout = (expansion layout).flatten (code.parts layout) := by
  simp [texts, Expansion.items, expansion]

@[simp] theorem texts_statement (layout : Layout) (expression : Code) :
    (statement expression).texts layout =
      expression.texts layout ++ [.ok layout.statementTerminator] := by
  rw [texts_eq_flatten]
  simp [parts, texts]

@[simp] theorem texts_call (layout : Layout) (callee : String) (arguments : List Code) :
    (call callee arguments).texts layout =
      .ok callee :: .ok "(" ::
        ([.ok layout.argumentSeparator].intercalate (arguments.map (texts layout)) ++
          [.ok ")"]) := by
  rw [texts_eq_flatten]
  simp only [parts, Expansion.flatten_finished, Expansion.flatten_append,
    Expansion.flatten_intersperse, Expansion.flatten_nil]
  rfl

@[simp] theorem texts_identifier (layout : Layout) (name : String) :
    (identifier name).texts layout = [.ok name] := by
  simp [texts_eq_flatten, parts]

@[simp] theorem texts_number (layout : Layout) (value : String) :
    (number value).texts layout = [.ok value] := by
  simp [texts_eq_flatten, parts]

@[simp] theorem texts_string (layout : Layout) (value : String) :
    (string value).texts layout = [.ok "\"", .ok value, .ok "\""] := by
  simp [texts_eq_flatten, parts]

def render (layout : Layout) (code : Code) : Except RenderError String :=
  (code.texts layout).join

end Code

namespace Listing

/-- The texts of the body, with a line separator between neighbours. -/
def texts (layout : Layout) (listing : Listing) : Texts :=
  (Code.expansion layout).flatten
    ((listing.body.map .pending).intersperse (.finished (.ok layout.lineSeparator)))

theorem texts_eq_intercalate (layout : Layout) (listing : Listing) :
    listing.texts layout =
      [.ok layout.lineSeparator].intercalate (listing.body.map (Code.texts layout)) :=
  Expansion.flatten_intersperse _ _ _

def render (layout : Layout) (listing : Listing) : Except RenderError String :=
  (listing.texts layout).join

end Listing

end CallForms

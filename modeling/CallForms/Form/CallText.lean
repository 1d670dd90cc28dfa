import CallForms.Config
import CallForms.Form.Basic

/-!
The text that a program compiles to, read off its forms directly.
-/

namespace CallForms

namespace Form

mutual

def callText (layout : Layout) : Form → String
  | number value => value
  | string value => "\"" ++ value ++ "\""
  | call name params =>
      name ++ "(" ++ layout.argumentSeparator.intercalate (callTexts layout params) ++ ")"

def callTexts (layout : Layout) : List Form → List String
  | [] => []
  | form :: rest => form.callText layout :: callTexts layout rest

end

theorem callTexts_eq_map (layout : Layout) (forms : List Form) :
    callTexts layout forms = forms.map (callText layout) := by
  induction forms with
  | nil => rfl
  | cons form rest ih => simp [callTexts, ih]

/-- The text of a form in the body of a program, where a call is a statement. -/
def lineText (layout : Layout) (form : Form) : String :=
  match form.kind with
  | .call => form.callText layout ++ layout.statementTerminator
  | _ => form.callText layout

end Form

def Program.callText (layout : Layout) (p : Program) : String :=
  layout.lineSeparator.intercalate (p.body.map (Form.lineText layout))

namespace Form

mutual

/-- The names of the calls in a form, an outer call before the calls in it. -/
def callNames : Form → List String
  | number _ | string _ => []
  | call name params => name :: callNamesAll params

def callNamesAll : List Form → List String
  | [] => []
  | form :: rest => form.callNames ++ callNamesAll rest

end

theorem callNamesAll_eq_flatMap (forms : List Form) :
    callNamesAll forms = forms.flatMap callNames := by
  induction forms with
  | nil => rfl
  | cons form rest ih => simp [callNamesAll, ih]

end Form

end CallForms

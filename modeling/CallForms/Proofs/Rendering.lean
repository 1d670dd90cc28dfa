import CallForms.Code.Lowered
import CallForms.Code.Pieces
import CallForms.Code.Writing
import CallForms.Form.CallText

/-!
Rendering never fails, and gives the text that is made of the pieces of the code.

Texts are collected and put together, or written one behind the other by recursion; both give the
pieces with the marks filled in. Putting texts together commutes with putting separators between
them, so the text of a node is made of the texts of its parts. For the code of a program this is the
text read off its forms.
-/

namespace CallForms

theorem map_intercalate {α β : Type} (f : α → β) (mark : α) (items : List (List α)) :
    ([mark].intercalate items).map f = [f mark].intercalate (items.map (List.map f)) := by
  induction items with
  | nil => simp
  | cons item rest ih =>
      cases rest with
      | nil => simp
      | cons next rest =>
          rw [List.map_cons] at ih
          simp [ih]

theorem join_intercalate (separator : String) (items : List (List String)) :
    String.join ([separator].intercalate items) =
      separator.intercalate (items.map String.join) := by
  induction items with
  | nil => simp
  | cons item rest ih =>
      cases rest with
      | nil => simp
      | cons next rest =>
          rw [List.map_cons] at ih
          simp [ih, String.append_assoc]

/-- Every item but the first one has a separator in front. -/
theorem intercalate_cons (separator first : String) (rest : List String) :
    separator.intercalate (first :: rest) = first ++ String.join (rest.map (separator ++ ·)) := by
  induction rest generalizing first with
  | nil => simp
  | cons next rest ih => simp [ih, String.append_assoc]

namespace Layout

variable (layout : Layout)

theorem assemble_cons (piece : Piece) (rest : List Piece) :
    layout.assemble (piece :: rest) = layout.fill piece ++ layout.assemble rest := by
  simp [assemble]

theorem assemble_append (front back : List Piece) :
    layout.assemble (front ++ back) = layout.assemble front ++ layout.assemble back := by
  simp [assemble]

theorem assemble_intercalate (mark : Piece) (items : List (List Piece)) :
    layout.assemble ([mark].intercalate items) =
      (layout.fill mark).intercalate (items.map layout.assemble) := by
  rw [assemble, map_intercalate, join_intercalate, List.map_map]
  rfl

end Layout

namespace Code

variable (layout : Layout)

section Text

@[simp] theorem text_statement (expression : Code) :
    (statement expression).text layout = expression.text layout ++ layout.statementTerminator := by
  rw [text, pieces, Layout.assemble_append, text]
  rfl

@[simp] theorem text_call (callee : String) (arguments : List Code) :
    (call callee arguments).text layout =
      callee ++ "(" ++ layout.argumentSeparator.intercalate (arguments.map (text layout)) ++
        ")" := by
  rw [text, pieces, piecesEach_eq_map, Layout.assemble_cons, Layout.assemble_cons,
    Layout.assemble_append, Layout.assemble_intercalate, List.map_map, String.append_assoc,
    String.append_assoc]
  rfl

@[simp] theorem text_identifier (name : String) : (identifier name).text layout = name := by
  simp [text, pieces, Layout.assemble, Layout.fill]

@[simp] theorem text_number (value : String) : (number value).text layout = value := by
  simp [text, pieces, Layout.assemble, Layout.fill]

@[simp] theorem text_string (value : String) :
    (string value).text layout = "\"" ++ value ++ "\"" := by
  simp [text, pieces, Layout.assemble, Layout.fill, String.append_assoc]

end Text

/-- Code is rendered as its pieces, with the marks filled in. -/
theorem texts_eq_map_fill (code : Code) :
    code.texts layout = (code.pieces.map layout.fill).map .ok := by
  induction code with
  | statement expression ih => simp [pieces, Layout.fill, ih]
  | call callee arguments ih =>
      have harguments : arguments.map (texts layout) =
          arguments.map (List.map .ok ∘ List.map layout.fill ∘ pieces) :=
        List.map_congr_left ih
      simp only [texts_call, pieces, piecesEach_eq_map, List.map_cons, List.map_append,
        List.map_nil, map_intercalate, List.map_map, harguments, Layout.fill]
  | identifier name => simp [pieces, Layout.fill]
  | number value => simp [pieces, Layout.fill]
  | string value => simp [pieces, Layout.fill]

theorem render_eq_text (code : Code) : code.render layout = .ok (code.text layout) := by
  rw [render, texts_eq_map_fill, Texts.join_map_ok]
  rfl

theorem map_render_eq (codes : List Code) :
    codes.map (render layout) = (codes.map (text layout)).map .ok := by
  rw [List.map_map]
  exact List.map_congr_left fun code _ => code.render_eq_text layout

/-- Behind the first place, every node is written with a separator in front. -/
theorem writeAll_succ_eq {codes : List Code}
    (h : ∀ code ∈ codes, ∀ out, code.write layout out = .ok (out ++ code.text layout))
    (separator : String) (place : Nat) (out : String) :
    writeAll layout separator (place + 1) codes out =
      .ok (out ++ String.join (codes.map fun code => separator ++ code.text layout)) := by
  induction codes generalizing place out with
  | nil => simp [writeAll, pure, Except.pure]
  | cons code rest ih =>
      obtain ⟨hcode, hrest⟩ := List.forall_mem_cons.mp h
      rw [writeAll, if_pos (Nat.succ_pos place), hcode]
      simp [bind, Except.bind, ih hrest, String.append_assoc]

theorem writeAll_eq {codes : List Code}
    (h : ∀ code ∈ codes, ∀ out, code.write layout out = .ok (out ++ code.text layout))
    (separator out : String) :
    writeAll layout separator 0 codes out =
      .ok (out ++ separator.intercalate (codes.map (text layout))) := by
  cases codes with
  | nil => simp [writeAll, pure, Except.pure]
  | cons code rest =>
      obtain ⟨hcode, hrest⟩ := List.forall_mem_cons.mp h
      rw [writeAll, if_neg (Nat.lt_irrefl 0), hcode, List.map_cons, intercalate_cons]
      simp [bind, Except.bind, writeAll_succ_eq layout hrest, String.append_assoc,
        Function.comp_def]

theorem write_eq (code : Code) :
    ∀ out, code.write layout out = .ok (out ++ code.text layout) := by
  induction code with
  | statement expression ih =>
      intro out
      rw [write]
      simp [bind, Except.bind, pure, Except.pure, ih, String.append_assoc]
  | call callee arguments ih =>
      intro out
      rw [write]
      simp [bind, Except.bind, pure, Except.pure, writeAll_eq layout ih, String.append_assoc]
  | identifier | number | string =>
      intro out
      rw [write]
      simp [bind, Except.bind, pure, Except.pure, String.append_assoc]

end Code

namespace Listing

variable (layout : Layout) (listing : Listing)

theorem text_eq_intercalate :
    listing.text layout =
      layout.lineSeparator.intercalate (listing.body.map (Code.text layout)) := by
  rw [text, pieces, Layout.assemble_intercalate, List.map_map]
  rfl

theorem render_eq_text : listing.render layout = .ok (listing.text layout) := by
  have hbody : listing.body.map (Code.texts layout) =
      listing.body.map (List.map .ok ∘ List.map layout.fill ∘ Code.pieces) :=
    List.map_congr_left fun code _ => code.texts_eq_map_fill layout
  have htexts : listing.texts layout = (listing.pieces.map layout.fill).map .ok := by
    rw [texts_eq_intercalate, hbody, pieces, map_intercalate, map_intercalate, List.map_map,
      List.map_map]
    rfl
  rw [render, htexts, Texts.join_map_ok]
  rfl

/-- Writing the body by recursion gives what rendering gives. -/
theorem write_eq_render : listing.write layout = listing.render layout := by
  have hbody : ∀ code ∈ listing.body, ∀ out,
      code.write layout out = .ok (out ++ code.text layout) := fun code _ => code.write_eq layout
  rw [write, Code.writeAll_eq layout hbody, String.empty_append, render_eq_text,
    text_eq_intercalate]

end Listing

namespace Form

variable (layout : Layout)

/-- The text of a form's code is the text read off the form. -/
theorem text_toCode (form : Form) : form.toCode.text layout = form.callText layout := by
  induction form with
  | number value => simp [toCode, callText]
  | string value => simp [toCode, callText]
  | call name params ih =>
      have hparams : params.map (Code.text layout ∘ toCode) = params.map (callText layout) :=
        List.map_congr_left ih
      simp [toCode, callText, toCodes_eq_map, callTexts_eq_map, hparams]

theorem text_toLine (form : Form) : form.toLine.text layout = form.lineText layout := by
  cases form <;> simp [toLine, lineText, kind, text_toCode]

end Form

namespace Program

variable (layout : Layout) (p : Program)

theorem map_text_toListing :
    p.toListing.body.map (Code.text layout) = p.body.map (Form.lineText layout) := by
  rw [toListing, List.map_map]
  exact List.map_congr_left fun form _ => form.text_toLine layout

theorem render_toListing : p.toListing.render layout = .ok (p.callText layout) := by
  rw [Listing.render_eq_text, Listing.text_eq_intercalate, map_text_toListing, callText]

end Program

end CallForms

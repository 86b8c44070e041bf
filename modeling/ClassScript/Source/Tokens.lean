import ClassScript.Source.Piece

/-!
# The tokens of a text

The pieces of a text are given their places one after another, which gives the tokens their spans.
-/

namespace ClassScript.Source

/-- The tokens of pieces that begin at a place. -/
def locate (p : Cursor) : List Piece → List Token
  | [] => []
  | q :: qs => q.kinds.map (fun k => ⟨k, p.spanOf q.text⟩) ++ locate (p.advance q.text) qs

/-- The place behind pieces. -/
def endOf (p : Cursor) (qs : List Piece) : Cursor := qs.foldl (fun p q => p.advance q.text) p

/-- The tokens of a text, or its first fault. -/
def tokens (text : String) : Except LexError (List Token) :=
  let s := scan text.toList
  match s.fault with
  | none => .ok (locate {} s.pieces)
  | some f => .error ⟨f.fault, (endOf {} s.pieces).spanOf f.text⟩

/-- The kinds of the tokens do not depend on where the text begins. -/
@[simp] theorem map_kind_locate (p : Cursor) (qs : List Piece) :
    (locate p qs).map Token.kind = qs.flatMap Piece.kinds := by
  induction qs generalizing p with
  | nil => rfl
  | cons q qs ih => simp [locate, ih, Function.comp_def]

theorem locate_append (p : Cursor) (qs rs : List Piece) :
    locate p (qs ++ rs) = locate p qs ++ locate (endOf p qs) rs := by
  induction qs generalizing p with
  | nil => rfl
  | cons q qs ih => simp [locate, endOf, ih]

end ClassScript.Source

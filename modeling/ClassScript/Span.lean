/-!
# Source positions

A `Span` is a region of the source text, with the line and column of its first character.  A
`Cursor` is a place in the text; it moves over characters and two of them bound a span.
-/

namespace ClassScript

/-- A region of source text: byte offsets of both ends, line and column of its first character. -/
structure Span where
  start : Nat := 0
  stop : Nat := 0
  line : Nat := 0
  column : Nat := 0
  deriving DecidableEq, Inhabited, Repr

namespace Span

/-- The smallest span over both; it has the line and column of the one that begins first. -/
def merge (a b : Span) : Span :=
  if b.start < a.start then ⟨b.start, max a.stop b.stop, b.line, b.column⟩
  else ⟨a.start, max a.stop b.stop, a.line, a.column⟩

/-- A span is shown by the place of its first character. -/
def text (s : Span) : String := s!"{s.line}:{s.column}"

@[simp] theorem merge_start (a b : Span) : (a.merge b).start = min a.start b.start := by
  unfold merge
  split <;> simp <;> omega

@[simp] theorem merge_stop (a b : Span) : (a.merge b).stop = max a.stop b.stop := by
  unfold merge
  split <;> rfl

end Span

/-- A place in the source text: byte offset, line and column, the last two counted from one. -/
structure Cursor where
  offset : Nat := 0
  line : Nat := 1
  column : Nat := 1
  deriving DecidableEq, Inhabited, Repr

namespace Cursor

/-- The place behind a character. -/
def next (p : Cursor) (c : Char) : Cursor :=
  if c = '\n' then ⟨p.offset + c.utf8Size, p.line + 1, 1⟩
  else ⟨p.offset + c.utf8Size, p.line, p.column + 1⟩

/-- The place behind a text. -/
def advance (p : Cursor) (text : List Char) : Cursor := text.foldl next p

/-- The span of the text that stands at a place. -/
def spanOf (p : Cursor) (text : List Char) : Span :=
  ⟨p.offset, (p.advance text).offset, p.line, p.column⟩

@[simp] theorem advance_nil (p : Cursor) : p.advance [] = p := rfl

@[simp] theorem advance_cons (p : Cursor) (c : Char) (text : List Char) :
    p.advance (c :: text) = (p.next c).advance text := rfl

@[simp] theorem advance_append (p : Cursor) (s t : List Char) :
    p.advance (s ++ t) = (p.advance s).advance t := List.foldl_append

@[simp] theorem next_offset (p : Cursor) (c : Char) : (p.next c).offset = p.offset + c.utf8Size := by
  unfold next
  split <;> rfl

@[simp] theorem spanOf_start (p : Cursor) (text : List Char) : (p.spanOf text).start = p.offset :=
  rfl

end Cursor

end ClassScript

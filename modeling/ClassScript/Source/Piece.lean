import ClassScript.Source.Lexeme
import ClassScript.Source.Line

/-!
# Pieces of a text

A text is cut into pieces; each says which tokens it gives.  Blanks and comments give none, the
blanks that begin a line give the change of level, a lexeme gives one.  Positions play no part here:
they follow from the texts of the pieces.  Main statement: the pieces make up the text without loss
(`texts_scan`).
-/

namespace ClassScript.Source

/-- A stretch of text and the kinds of the tokens that stand for it. -/
structure Piece where
  text : List Char
  kinds : List TokenKind
  deriving DecidableEq, Repr

/-- What is wrong, and the text that was read to find it. -/
structure Fault where
  fault : LexFault
  text : List Char
  deriving DecidableEq, Repr

/-- The pieces of a text up to its end or to the first fault. -/
structure Scan where
  pieces : List Piece
  fault : Option Fault := none
  deriving DecidableEq, Repr

namespace Scan

/-- A scan with one more piece in front. -/
def cons (p : Piece) (s : Scan) : Scan := ⟨p :: s.pieces, s.fault⟩

/-- A scan that stops at a fault. -/
def failed (f : LexFault) (text : List Char) : Scan := ⟨[], some ⟨f, text⟩⟩

/-- One scan after another; a fault ends it. -/
def append (s t : Scan) : Scan :=
  match s.fault with
  | none => ⟨s.pieces ++ t.pieces, t.fault⟩
  | some _ => s

@[simp] theorem cons_pieces (p : Piece) (s : Scan) : (s.cons p).pieces = p :: s.pieces := rfl

@[simp] theorem cons_fault (p : Piece) (s : Scan) : (s.cons p).fault = s.fault := rfl

end Scan

/-- A blank inside a line. -/
def isBlank (c : Char) : Bool := c = ' ' || c = '\t' || c = '\r'

/-- A blank that may begin a line. -/
def isMargin (c : Char) : Bool := c = ' ' || c = '\r'

/-- The pieces of a line behind its margin. The end of the line gives a token even where the text
ends without a line feed. -/
def scanBody (cs : List Char) : Scan :=
  match cs with
  | [] => ⟨[⟨[], [.newline]⟩], none⟩
  | c :: cs =>
    if c = '\n' then ⟨[⟨[c], [.newline]⟩], none⟩
    else if isBlank c then (scanBody cs).cons ⟨[c], []⟩
    else if c = '#' then
      (scanBody (cs.dropWhile (· ≠ '\n'))).cons ⟨c :: cs.takeWhile (· ≠ '\n'), []⟩
    else match lexeme c cs with
      | .ok (k, n) => (scanBody (cs.drop n)).cons ⟨c :: cs.take n, [k]⟩
      | .error (f, n) => .failed f (c :: cs.take n)
termination_by cs.length
decreasing_by
  · simp
  · exact Nat.lt_succ_of_le (List.dropWhile_suffix _).length_le
  · exact Nat.lt_succ_of_le (by simp)

/-- The tokens that mark a change of level. -/
def levelMarks (old new : Nat) : List TokenKind :=
  if old < new then .replicate (new - old) .indent else .replicate (old - new) .dedent

/-- The pieces of a line, and the level behind it. A line of blanks or a comment alone keeps the
level and gives no token; the margin of any other is two spaces a level. -/
def scanLine (level : Nat) (line : List Char) : Scan × Nat :=
  let margin := line.takeWhile isMargin
  let body := line.dropWhile isMargin
  match body with
  | [] => (⟨[⟨line, []⟩], none⟩, level)
  | c :: _ =>
    if c = '\t' then (.failed .invalidIndent margin, level)
    else if c = '\n' ∨ c = '#' then (⟨[⟨line, []⟩], none⟩, level)
    else
      let width := margin.count ' '
      if width % 2 = 0 then
        ((scanBody body).cons ⟨margin, levelMarks level (width / 2)⟩, width / 2)
      else (.failed .invalidIndent margin, level)

/-- The pieces of lines one after another. Behind the last one all levels are left. -/
def scanLines (level : Nat) : List (List Char) → Scan
  | [] => ⟨[⟨[], .replicate level .dedent ++ [.eof]⟩], none⟩
  | line :: rest =>
    let (s, level) := scanLine level line
    s.append (scanLines level rest)

/-- The pieces of a text. -/
def scan (text : List Char) : Scan := scanLines 0 (lines text)

/-! ### Nothing is lost -/

/-- The texts of pieces, one after another. -/
def texts (ps : List Piece) : List Char := ps.flatMap Piece.text

@[simp] theorem texts_nil : texts [] = [] := rfl

@[simp] theorem texts_cons (p : Piece) (ps : List Piece) : texts (p :: ps) = p.text ++ texts ps := rfl

@[simp] theorem texts_append (ps qs : List Piece) : texts (ps ++ qs) = texts ps ++ texts qs :=
  List.flatMap_append

theorem texts_scanBody {cs : List Char} (hl : '\n' ∉ cs.dropLast) (h : (scanBody cs).fault = none) :
    texts (scanBody cs).pieces = cs := by
  have tail {s t : List Char} (hl : '\n' ∉ (s ++ t).dropLast) : '\n' ∉ t.dropLast := by
    cases t with
    | nil => simp
    | cons c t =>
      rw [List.dropLast_append_of_ne_nil (by simp)] at hl
      exact fun hm => hl (List.mem_append_right _ hm)
  fun_induction scanBody cs with
  | case1 => rfl
  | case2 cs =>
    cases cs with
    | nil => rfl
    | cons c cs => simp at hl
  | case3 c cs hc hb ih =>
    have hl' : '\n' ∉ cs.dropLast := tail (s := [c]) hl
    simp [ih hl' h]
  | case4 cs hc hb ih =>
    have hs : '#' :: cs = ('#' :: cs.takeWhile (· ≠ '\n')) ++ cs.dropWhile (· ≠ '\n') := by
      rw [List.cons_append, List.takeWhile_append_dropWhile]
    have hl' : '\n' ∉ (cs.dropWhile (· ≠ '\n')).dropLast := tail (hs ▸ hl)
    rw [Scan.cons_pieces, texts_cons, ih hl' h]
    exact hs.symm
  | case5 c cs hc hb hh k n hk ih =>
    have hs : c :: cs = (c :: cs.take n) ++ cs.drop n := by
      rw [List.cons_append, List.take_append_drop]
    have hl' : '\n' ∉ (cs.drop n).dropLast := tail (hs ▸ hl)
    rw [Scan.cons_pieces, texts_cons, ih hl' h]
    exact hs.symm
  | case6 c cs hc hb hh f n hk => simp [Scan.failed] at h

theorem texts_scanLine {level : Nat} {line : List Char} (hl : '\n' ∉ line.dropLast)
    (h : (scanLine level line).1.fault = none) : texts (scanLine level line).1.pieces = line := by
  have hs := List.takeWhile_append_dropWhile (p := isMargin) (l := line)
  unfold scanLine at h ⊢
  simp only at h ⊢
  split
  · simp
  · rename_i c body hb
    simp only [hb] at h
    split at h
    · simp [Scan.failed] at h
    split at h
    · rename_i hc hm
      simp [hc, hm]
    split at h
    · rename_i hc hm hw
      simp only [hc, hm, hw, if_false, if_true, Scan.cons_pieces, texts_cons]
      rw [hb] at hs ⊢
      have hb' : '\n' ∉ (c :: body).dropLast := by
        rw [← hs, List.dropLast_append_of_ne_nil (by simp)] at hl
        exact fun hn => hl (List.mem_append_right _ hn)
      rw [texts_scanBody hb' h, hs]
    · simp [Scan.failed] at h

theorem texts_scanLines {level : Nat} {ls : List (List Char)} (hl : ∀ l ∈ ls, '\n' ∉ l.dropLast)
    (h : (scanLines level ls).fault = none) : texts (scanLines level ls).pieces = ls.flatten := by
  induction ls generalizing level with
  | nil => rfl
  | cons l ls ih =>
    simp only [scanLines, Scan.append] at h ⊢
    cases hf : (scanLine level l).1.fault with
    | none =>
      rw [hf] at h
      rw [texts_append, texts_scanLine (hl l List.mem_cons_self) hf,
        ih (fun k hk => hl k (List.mem_cons_of_mem _ hk)) h, List.flatten_cons]
    | some f => simp [hf] at h

/-- The pieces of a text that has no fault make up the text. -/
theorem texts_scan {text : List Char} (h : (scan text).fault = none) :
    texts (scan text).pieces = text := by
  rw [scan, texts_scanLines (fun l hl => newline_not_mem_dropLast hl) h, flatten_lines]

end ClassScript.Source

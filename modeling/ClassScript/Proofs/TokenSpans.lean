import ClassScript.Proofs.TextsJoined
import Mathlib.Data.List.Induction
import Mathlib.Data.List.TakeWhile

/-!
# Spans of tokens

The spans of the tokens of a text follow one another in the text.  A span tells the line and the column that it
begins at, the text of a token that is no layout mark is a text of this token alone, and what no span has a part
in are blanks, comments and the ends of lines without tokens.  Main statement: `tokens_tile`.
-/

namespace ClassScript

namespace TokenKind

/-- A token that stands for a word of the text. -/
def isContent : TokenKind → Bool
  | newline | indent | dedent | eof => false
  | _ => true

/-- A token that stands for a word of the text or for the end of a line. -/
def isSolid (k : TokenKind) : Bool := k.isContent || k = newline

end TokenKind

/-! ### Places -/

namespace Cursor

theorem advance_offset (p : Cursor) (s : List Char) :
    (p.advance s).offset = p.offset + (String.ofList s).utf8ByteSize := by
  induction s generalizing p with
  | nil => simp
  | cons c s ih =>
    rw [advance_cons, ih, next_offset, String.ofList_cons, String.utf8ByteSize_append,
      String.utf8ByteSize_singleton, Nat.add_assoc]

theorem advance_line (p : Cursor) (s : List Char) : (p.advance s).line = p.line + s.count '\n' := by
  induction s generalizing p with
  | nil => simp
  | cons c s ih =>
    rw [advance_cons, ih]
    by_cases hc : c = '\n'
    · rw [next, if_pos hc, hc, List.count_cons_self, Nat.add_right_comm, Nat.add_assoc]
    · rw [next, if_neg hc, List.count_cons_of_ne hc]

/-- The column is counted from the last line feed. -/
theorem advance_column (s : List Char) :
    (({} : Cursor).advance s).column = 1 + (s.reverse.takeWhile (· ≠ '\n')).length := by
  induction s using List.reverseRecOn with
  | nil => rfl
  | append_singleton s c ih =>
    rw [advance_append, List.reverse_append, List.reverse_singleton, List.singleton_append, advance_cons,
      advance_nil]
    by_cases hc : c = '\n'
    · rw [next, if_pos hc, hc]
      rfl
    · rw [next, if_neg hc, List.takeWhile_cons_of_pos (by simpa using hc), List.length_cons]
      dsimp only
      rw [ih]
      omega

end Cursor

namespace Source

/-! ### Words of lexemes -/

theorem push_eq_ok {c : Char} {m n : Nat} {r : Read (List Char)} {s : List Char}
    (h : r.push c m = .ok (s, n)) : ∃ s' n', r = .ok (s', n') ∧ s = c :: s' ∧ n = m + n' := by
  cases r with
  | error f => cases h
  | ok r =>
    cases h
    exact ⟨_, _, rfl, rfl, rfl⟩

/-- What is read between quotes may stand there for the string. -/
theorem escaped_of_quoted {q : Char} {cs s : List Char} {n : Nat} (h : quoted q cs = .ok (s, n)) :
    ∃ body rest, cs = body ++ q :: rest ∧ n = body.length + 1 ∧ Escaped q s body := by
  fun_induction quoted q cs generalizing s n with
  | case1 => cases h
  | case2 => cases h
  | case3 e cs c he ih =>
    obtain ⟨s', n', hread, rfl, rfl⟩ := push_eq_ok h
    obtain ⟨body, rest, rfl, rfl, hbody⟩ := ih hread
    exact ⟨'\\' :: e :: body, rest, rfl, Nat.add_comm _ _, .escape he hbody⟩
  | case4 => cases h
  | case5 => cases h
  | case6 =>
    cases h
    exact ⟨[], _, rfl, rfl, .nil⟩
  | case7 c cs hend hesc hn hq ih =>
    obtain ⟨s', n', hread, rfl, rfl⟩ := push_eq_ok h
    obtain ⟨body, rest, rfl, rfl, hbody⟩ := ih hread
    have hb : c ≠ '\\' := by
      rintro rfl
      cases body with
      | nil => exact hesc q rest rfl rfl
      | cons d ds => exact hesc d _ rfl rfl
    exact ⟨c :: body, rest, rfl, Nat.add_comm _ _, .plain hq hb hn hbody⟩

/-- What is read for a token is a word for it. -/
theorem word_of_lexeme {c : Char} {cs : List Char} {k : TokenKind} {n : Nat} (hc : c ≠ '#')
    (h : lexeme c cs = .ok (k, n)) : Word k (c :: cs.take n) := by
  have htake (p : Char → Bool) : cs.take (cs.takeWhile p).length = cs.takeWhile p :=
    (List.prefix_iff_eq_take.1 (List.takeWhile_prefix p)).symm
  have hmark : Text.isPunctuation c = true → c ≠ '_' → ¬ (c = '"' ∨ c = '\'') → isMark c = true := by
    intro hp hu hq
    obtain ⟨hd, hs⟩ := not_or.1 hq
    simp [isMark, hp, hc, hu, hd, hs]
  unfold lexeme at h
  cases he : withEquals? c with
  | some j =>
    rw [he] at h
    dsimp only at h
    split at h
    · rename_i hhead
      cases h
      obtain ⟨ds, rfl⟩ : ∃ ds, cs = '=' :: ds := List.head?_eq_some_iff.1 hhead
      exact .pair he
    · cases h
      refine .mark ?_
      unfold withEquals? at he
      split at he
      all_goals first | decide | cases he
  | none =>
    rw [he] at h
    dsimp only at h
    split at h
    · rename_i hq
      cases hread : quoted c cs with
      | error f =>
        rw [hread] at h
        cases h
      | ok r =>
        obtain ⟨s, m⟩ := r
        rw [hread] at h
        cases h
        obtain ⟨body, rest, rfl, rfl, hbody⟩ := escaped_of_quoted hread
        rw [List.append_cons, List.take_left' (by simp)]
        exact .string hq (by rwa [String.toList_ofList])
    split at h
    · rename_i hd
      unfold number at h
      dsimp only at h
      split at h
      · rename_i hbound
        cases h
        rw [htake]
        refine .number ?_ (List.cons_ne_nil _ _) hbound
        exact List.forall_mem_cons.2 ⟨hd, fun d hm => List.mem_takeWhile_imp hm⟩
      · cases h
    split at h
    · rename_i hw
      cases h
      rw [htake]
      exact .word hw fun d hm => List.mem_takeWhile_imp hm
    split at h
    · rename_i hq _ hw hp
      cases h
      refine .mark (hmark hp ?_ hq)
      rintro rfl
      exact hw (by decide)
    · cases h

/-! ### Pieces -/

/-- A piece is a word for one token or the end of a line, or it has no tokens but marks of levels and of the
end of the text. -/
inductive Piece.Proper : Piece → Prop
  | word {k : TokenKind} {t : List Char} (h : Word k t) : Proper ⟨t, [k]⟩
  | stop (t : List Char) : Proper ⟨t, [.newline]⟩
  | marks {t : List Char} {ks : List TokenKind} (h : ∀ k ∈ ks, k.isSolid = false) : Proper ⟨t, ks⟩

theorem proper_scanBody (cs : List Char) : ∀ q ∈ (scanBody cs).pieces, q.Proper := by
  fun_induction scanBody cs with
  | case1 => exact List.forall_mem_singleton.2 (.stop _)
  | case2 => exact List.forall_mem_singleton.2 (.stop _)
  | case3 c cs _ _ ih => exact List.forall_mem_cons.2 ⟨.marks (List.forall_mem_nil _), ih⟩
  | case4 cs _ _ ih => exact List.forall_mem_cons.2 ⟨.marks (List.forall_mem_nil _), ih⟩
  | case5 c cs _ _ hc k n hk ih => exact List.forall_mem_cons.2 ⟨.word (word_of_lexeme hc hk), ih⟩
  | case6 => exact List.forall_mem_nil _

theorem isSolid_levelMarks (old new : Nat) : ∀ k ∈ levelMarks old new, k.isSolid = false := by
  intro k hk
  unfold levelMarks at hk
  split at hk
  · rw [List.eq_of_mem_replicate hk]
    rfl
  · rw [List.eq_of_mem_replicate hk]
    rfl

theorem proper_scanLine (level : Nat) (line : List Char) : ∀ q ∈ (scanLine level line).1.pieces, q.Proper := by
  rcases scanLine_cases line with ⟨f, text, h⟩ | ⟨margin, body, -, -, ⟨-, h⟩ | ⟨new, h⟩⟩
  · rw [h]
    exact List.forall_mem_nil _
  · rw [h]
    exact List.forall_mem_singleton.2 (.marks (List.forall_mem_nil _))
  · rw [h]
    exact List.forall_mem_cons.2 ⟨.marks (isSolid_levelMarks level new), proper_scanBody body⟩

/-- What holds of the pieces of all lines and of the last piece holds of all pieces. -/
theorem forall_mem_scanLines {P : Piece → Prop} {ls : List (List Char)} (level : Nat)
    (hline : ∀ l ∈ ls, ∀ level, ∀ q ∈ (scanLine level l).1.pieces, P q)
    (hend : ∀ level, P ⟨[], .replicate level .dedent ++ [.eof]⟩) : ∀ q ∈ (scanLines level ls).pieces, P q := by
  induction ls generalizing level with
  | nil => exact List.forall_mem_singleton.2 (hend level)
  | cons l ls ih =>
    obtain ⟨hl, hls⟩ := List.forall_mem_cons.1 hline
    rw [scanLines_cons, Scan.append]
    split
    · exact List.forall_mem_append.2 ⟨hl level, ih _ hls⟩
    · exact hl level

theorem proper_scan (text : List Char) : ∀ q ∈ (scan text).pieces, q.Proper := by
  refine forall_mem_scanLines 0 (fun l _ level => proper_scanLine level l) fun level => .marks fun k hk => ?_
  rcases List.mem_append.1 hk with hk | hk
  · rw [List.eq_of_mem_replicate hk]
    rfl
  · rw [List.mem_singleton.1 hk]
    rfl

/-! ### Places of tokens -/

theorem endOf_eq (p : Cursor) (qs : List Piece) : endOf p qs = p.advance (texts qs) := by
  induction qs generalizing p with
  | nil => rfl
  | cons q qs ih => rw [texts_cons, Cursor.advance_append, ← ih]; rfl

/-- A token stands where one of the pieces does. -/
theorem exists_of_mem_locate {p : Cursor} {qs : List Piece} {t : Token} (h : t ∈ locate p qs) :
    ∃ front q back, qs = front ++ q :: back ∧ t.kind ∈ q.kinds ∧
      t.span = (p.advance (texts front)).spanOf q.text := by
  induction qs generalizing p with
  | nil => cases h
  | cons q qs ih =>
    rcases List.mem_append.1 h with h | h
    · obtain ⟨k, hk, rfl⟩ := List.mem_map.1 h
      exact ⟨[], q, qs, rfl, hk, rfl⟩
    · obtain ⟨front, r, back, rfl, hk, hspan⟩ := ih h
      refine ⟨q :: front, r, back, rfl, hk, ?_⟩
      rw [hspan, texts_cons, Cursor.advance_append]

/-- Tokens stand within the text of their pieces, and not before its first line. -/
theorem bounds_of_mem_locate {p : Cursor} {qs : List Piece} {t : Token} (h : t ∈ locate p qs) :
    p.offset ≤ t.span.start ∧ t.span.start ≤ t.span.stop ∧
      t.span.stop ≤ (p.advance (texts qs)).offset ∧ p.line ≤ t.span.line := by
  obtain ⟨front, q, back, rfl, -, hspan⟩ := exists_of_mem_locate h
  rw [hspan, texts_append, texts_cons]
  simp only [Cursor.spanOf, Cursor.advance_append, Cursor.advance_offset, Cursor.advance_line]
  omega

/-- Spans follow one another, and those of words and of the ends of lines have nothing in common. -/
def Follows (t u : Token) : Prop :=
  t.span.start ≤ u.span.start ∧ t.span.stop ≤ u.span.stop ∧
    (t.kind.isSolid = true → u.kind.isSolid = true → t.span.stop ≤ u.span.start)

/-- Tokens of pieces, one piece behind the other. -/
theorem pairwise_locate_of {R : Token → Token → Prop} {p : Cursor} {qs : List Piece}
    (hpiece : ∀ q ∈ qs, q.kinds.Pairwise fun j k => ∀ s, R ⟨j, s⟩ ⟨k, s⟩)
    (hapart : ∀ t u : Token, t.span.start ≤ t.span.stop → t.span.stop ≤ u.span.start →
      u.span.start ≤ u.span.stop → R t u) : (locate p qs).Pairwise R := by
  induction qs generalizing p with
  | nil => exact .nil
  | cons q qs ih =>
    obtain ⟨hq, hqs⟩ := List.forall_mem_cons.1 hpiece
    refine List.pairwise_append.2 ⟨?_, ih hqs, fun t ht u hu => ?_⟩
    · exact List.pairwise_map.2 (hq.imp fun h => h _)
    · obtain ⟨k, -, rfl⟩ := List.mem_map.1 ht
      obtain ⟨hstart, hle, -, -⟩ := bounds_of_mem_locate hu
      refine hapart _ u ?_ hstart hle
      show p.offset ≤ (p.advance q.text).offset
      rw [Cursor.advance_offset]
      exact Nat.le_add_right _ _

theorem pairwise_locate {p : Cursor} {qs : List Piece} (h : ∀ q ∈ qs, q.Proper) :
    (locate p qs).Pairwise Follows := by
  refine pairwise_locate_of (fun q hq => ?_) fun t u hle hbefore hle' => ?_
  · cases h q hq with
    | word => exact List.pairwise_singleton _ _
    | stop => exact List.pairwise_singleton _ _
    | marks hmarks =>
      refine List.Pairwise.imp_of_mem (R := fun _ _ => True) ?_ (List.pairwise_of_forall fun _ _ => trivial)
      intro j k hj _ _ s
      refine ⟨Nat.le_refl _, Nat.le_refl _, fun hsolid => ?_⟩
      rw [hmarks j hj] at hsolid
      cases hsolid
  · exact ⟨Nat.le_trans hle hbefore, Nat.le_trans hbefore hle', fun _ _ => hbefore⟩

/-! ### What stands in no span -/

/-- No span has a part in what stands at an offset. -/
def Outside (ts : List Token) (offset : Nat) : Prop :=
  ∀ t ∈ ts, ¬ (t.span.start ≤ offset ∧ offset < t.span.stop)

theorem outside_append {ts us : List Token} {offset : Nat} :
    Outside (ts ++ us) offset ↔ Outside ts offset ∧ Outside us offset :=
  List.forall_mem_append

/-- What stands in two lists, one behind the other, stands in the first of them or in the second. -/
theorem append_eq_append_cons {α : Type} {a b u v : List α} {c : α} (h : a ++ b = u ++ c :: v) :
    (∃ z, a = u ++ c :: z) ∨ ∃ z, u = a ++ z ∧ b = z ++ c :: v := by
  rcases List.append_eq_append_iff.1 h with ⟨z, hu, hb⟩ | ⟨z, ha, hb⟩
  · exact .inr ⟨z, hu, hb⟩
  · cases z with
    | nil => exact .inr ⟨[], by rw [ha, List.append_nil, List.append_nil], hb.symm⟩
    | cons d z =>
      cases hb
      exact .inl ⟨z, ha⟩

/-- A character of a text stands in one of its pieces. -/
theorem exists_piece {qs : List Piece} {x y : List Char} {c : Char} (h : texts qs = x ++ c :: y) :
    ∃ front q back u v, qs = front ++ q :: back ∧ q.text = u ++ c :: v ∧ x = texts front ++ u := by
  induction qs generalizing x with
  | nil => exact absurd h.symm (by simp)
  | cons q qs ih =>
    rcases append_eq_append_cons h with ⟨z, hz⟩ | ⟨z, rfl, hz⟩
    · exact ⟨[], q, qs, x, z, rfl, hz, rfl⟩
    · obtain ⟨front, r, back, u, v, rfl, hr, rfl⟩ := ih hz
      exact ⟨q :: front, r, back, u, v, rfl, hr, by simp⟩

/-- No span has a part in a character of a piece just if the piece has no tokens. -/
theorem outside_piece {p : Cursor} {front back : List Piece} {q : Piece} {u v : List Char} {c : Char}
    (h : q.text = u ++ c :: v) :
    Outside (locate p (front ++ q :: back)) (p.advance (texts front ++ u)).offset ↔ q.kinds = [] := by
  have hsize := c.utf8Size_pos
  rw [locate_append, outside_append, endOf_eq]
  constructor
  · rintro ⟨-, hout⟩
    refine List.eq_nil_iff_forall_not_mem.2 fun k hk => ?_
    refine hout ⟨k, _⟩ (List.mem_append_left _ (List.mem_map.2 ⟨k, hk, rfl⟩)) ⟨?_, ?_⟩
    · simp only [Cursor.spanOf, Cursor.advance_append, Cursor.advance_offset]
      omega
    · simp only [Cursor.spanOf, h, Cursor.advance_append, Cursor.advance_offset, String.ofList_cons,
        String.utf8ByteSize_append, String.utf8ByteSize_singleton]
      omega
  · intro hq
    refine ⟨fun t ht => ?_, fun t ht => ?_⟩
    · obtain ⟨-, -, hstop, -⟩ := bounds_of_mem_locate ht
      simp only [Cursor.advance_append, Cursor.advance_offset] at hstop ⊢
      omega
    · rw [locate, hq, List.map_nil, List.nil_append] at ht
      obtain ⟨hstart, -, -, -⟩ := bounds_of_mem_locate ht
      simp only [h, Cursor.advance_append, Cursor.advance_offset, String.ofList_cons,
        String.utf8ByteSize_append, String.utf8ByteSize_singleton] at hstart ⊢
      omega

/-- A text with a number sign in it and no line feed behind that. -/
def EndsInComment (cs : List Char) : Prop := ∃ a b, cs = a ++ '#' :: b ∧ '\n' ∉ b

theorem EndsInComment.ne_newline {u : List Char} {c : Char} (h : EndsInComment (u ++ [c])) : c ≠ '\n' := by
  rintro rfl
  obtain ⟨a, b, hab, hb⟩ := h
  rcases List.eq_nil_or_concat b with rfl | ⟨b, d, rfl⟩
  · exact absurd (List.append_inj_right' hab rfl) (by decide)
  · rw [List.concat_eq_append, ← List.cons_append, ← List.append_assoc] at hab
    have hd : ['\n'] = [d] := List.append_inj_right' hab rfl
    exact hb (by simp [List.concat_eq_append, ← hd])

/-- What stands in a piece without tokens is a blank or part of a comment. -/
def Piece.Quiet (q : Piece) : Prop :=
  q.kinds = [] → ∀ u c v, q.text = u ++ c :: v → isBlank c = true ∨ EndsInComment (u ++ [c])

theorem quiet_of_token (t : List Char) (k : TokenKind) : Piece.Quiet ⟨t, [k]⟩ :=
  fun h => absurd h (List.cons_ne_nil k [])

theorem quiet_blanks {t : List Char} (h : ∀ c ∈ t, isBlank c = true) (ks : List TokenKind) :
    Piece.Quiet ⟨t, ks⟩ := by
  intro _ u c v hsplit
  have ht : t = u ++ c :: v := hsplit
  exact .inl (h c (ht ▸ List.mem_append_right _ List.mem_cons_self))

theorem endsInComment_cons {u v b : List Char} {c : Char} (h : '#' :: b = u ++ c :: v) (hb : '\n' ∉ b) :
    EndsInComment (u ++ [c]) := by
  cases u with
  | nil =>
    cases h
    exact ⟨[], [], rfl, List.not_mem_nil⟩
  | cons d u =>
    rw [List.cons_append] at h
    obtain ⟨rfl, rfl⟩ := List.cons.inj h
    refine ⟨[], u ++ [c], rfl, fun hm => hb ?_⟩
    rw [List.append_cons]
    exact List.mem_append_left v hm

theorem quiet_scanBody (cs : List Char) : ∀ q ∈ (scanBody cs).pieces, q.Quiet := by
  fun_induction scanBody cs with
  | case1 => exact List.forall_mem_singleton.2 (quiet_of_token _ _)
  | case2 => exact List.forall_mem_singleton.2 (quiet_of_token _ _)
  | case3 c cs _ hb ih => exact List.forall_mem_cons.2 ⟨quiet_blanks (List.forall_mem_singleton.2 hb) [], ih⟩
  | case4 cs _ _ ih =>
    refine List.forall_mem_cons.2 ⟨fun _ u c v hsplit => .inr (endsInComment_cons hsplit fun hm => ?_), ih⟩
    have hne := List.mem_takeWhile_imp hm
    simp at hne
  | case5 c cs _ _ _ k n hk ih => exact List.forall_mem_cons.2 ⟨quiet_of_token _ k, ih⟩
  | case6 => exact List.forall_mem_nil _

theorem isBlank_of_isMargin {c : Char} (h : isMargin c = true) : isBlank c = true := by
  simp only [isMargin, isBlank, Bool.or_eq_true] at h ⊢
  rcases h with h | h
  · exact .inl (.inl h)
  · exact .inr h

/-- A line without tokens is a single piece of blanks, a comment and the end of the line. -/
theorem quiet_scanLine {level : Nat} {line : List Char} (hl : '\n' ∉ line.dropLast) :
    (∀ q ∈ (scanLine level line).1.pieces, q.Quiet) ∨ (scanLine level line).1.pieces = [⟨line, []⟩] ∧
      ∀ u c v, line = u ++ c :: v → isBlank c = true ∨ EndsInComment (u ++ [c]) ∨ c = '\n' := by
  rcases scanLine_cases line with ⟨f, text, h⟩ | ⟨margin, body, hline, hmargin, ⟨hbody, h⟩ | ⟨new, h⟩⟩
  · rw [h]
    exact .inl (List.forall_mem_nil _)
  · refine .inr ⟨by rw [h], fun u c v hsplit => ?_⟩
    by_cases hc : c = '\n'
    · exact .inr (.inr hc)
    rcases append_eq_append_cons (hline.symm.trans hsplit) with ⟨z, hz⟩ | ⟨z, rfl, hz⟩
    · exact .inl (isBlank_of_isMargin (hmargin c (hz ▸ List.mem_append_right _ List.mem_cons_self)))
    -- behind the margin the line ends, or there is a comment up to its end
    · refine .inr (.inl ?_)
      have hu : '\n' ∉ margin ++ z := by
        rw [hsplit, List.dropLast_append_of_ne_nil (List.cons_ne_nil c v)] at hl
        exact fun hm => hl (List.mem_append_left _ hm)
      cases z with
      | nil =>
        rcases hbody c (by rw [hz]; rfl) with rfl | rfl
        · exact absurd rfl hc
        · exact ⟨margin, [], by rw [List.append_nil], List.not_mem_nil⟩
      | cons d z =>
        rcases hbody d (by rw [hz]; rfl) with rfl | rfl
        · exact absurd (List.mem_append_right _ List.mem_cons_self) hu
        · refine ⟨margin, z ++ [c], by rw [List.append_assoc, List.cons_append], fun hm => ?_⟩
          rcases List.mem_append.1 hm with hm | hm
          · exact hu (List.mem_append_right _ (List.mem_cons_of_mem _ hm))
          · exact hc (List.mem_singleton.1 hm).symm
  · rw [h]
    refine .inl (List.forall_mem_cons.2 ⟨quiet_blanks (fun c hc => isBlank_of_isMargin (hmargin c hc)) _, ?_⟩)
    exact quiet_scanBody body

/-! ### Lines -/

theorem next_line {p : Cursor} {c : Char} (hc : c ≠ '\n') : (p.next c).line = p.line := by
  rw [Cursor.next, if_neg hc]

theorem advance_line_of_not_mem {p : Cursor} {s : List Char} (h : '\n' ∉ s) : (p.advance s).line = p.line := by
  rw [Cursor.advance_line, List.count_eq_zero.2 h, Nat.add_zero]

/-- All tokens of a line are on it. -/
theorem line_scanBody {p : Cursor} {cs : List Char} : ∀ t ∈ locate p (scanBody cs).pieces, t.span.line = p.line := by
  fun_induction scanBody cs generalizing p with
  | case1 => exact List.forall_mem_singleton.2 rfl
  | case2 => exact List.forall_mem_singleton.2 rfl
  | case3 c cs hn _ ih =>
    intro t ht
    rw [ih t ht, Cursor.advance_cons, Cursor.advance_nil, next_line hn]
  | case4 cs hn _ ih =>
    intro t ht
    have htake : '\n' ∉ '#' :: cs.takeWhile (· ≠ '\n') := by
      intro hm
      rcases List.mem_cons.1 hm with h | hm
      · exact hn h.symm
      · have hne := List.mem_takeWhile_imp hm
        simp at hne
    rw [ih t ht, advance_line_of_not_mem htake]
  | case5 c cs _ _ hc k n hk ih =>
    intro t ht
    rcases List.mem_append.1 ht with ht | ht
    · rw [List.mem_singleton.1 ht]
      rfl
    · rw [ih t ht, advance_line_of_not_mem (word_of_lexeme hc hk).newline_not_mem]
  | case6 => exact List.forall_mem_nil _

theorem line_scanLine {p : Cursor} (level : Nat) (line : List Char) :
    ∀ t ∈ locate p (scanLine level line).1.pieces, t.span.line = p.line := by
  rcases scanLine_cases line with ⟨f, text, h⟩ | ⟨margin, body, -, hmargin, ⟨-, h⟩ | ⟨new, h⟩⟩
  · rw [h]
    exact List.forall_mem_nil _
  · rw [h]
    exact List.forall_mem_nil _
  · rw [h]
    intro t ht
    rcases List.mem_append.1 ht with ht | ht
    · obtain ⟨k, -, rfl⟩ := List.mem_map.1 ht
      rfl
    · have hm : '\n' ∉ margin := fun hm => absurd (hmargin _ hm) (by decide)
      rw [line_scanBody t ht, advance_line_of_not_mem hm]

/-- A line feed that no span has a part in ends a line without tokens. -/
theorem locate_eq_nil_of_outside {p : Cursor} {level : Nat} {x : List Char}
    (hl : '\n' ∉ (x ++ ['\n']).dropLast) (hfault : (scanLine level (x ++ ['\n'])).1.fault = none)
    (hout : Outside (locate p (scanLine level (x ++ ['\n'])).1.pieces) (p.advance x).offset) :
    locate p (scanLine level (x ++ ['\n'])).1.pieces = [] := by
  rcases quiet_scanLine hl with hquiet | ⟨h, -⟩
  · obtain ⟨front, q, back, u, v, hpieces, hq, rfl⟩ := exists_piece (texts_scanLine hl hfault)
    rw [hpieces] at hout hquiet
    have hkinds := (outside_piece hq).1 hout
    rcases hquiet q (List.mem_append_right _ List.mem_cons_self) hkinds u _ v hq with h | h
    · cases h
    · exact absurd rfl h.ne_newline
  · rw [h]
    rfl

/-- Every line but the last ends with a line feed. -/
theorem newline_mem_of_mem_dropLast {cs l : List Char} (h : l ∈ (lines cs).dropLast) : '\n' ∈ l := by
  induction cs generalizing l with
  | nil => cases h
  | cons c cs ih =>
    by_cases hc : c = '\n'
    · subst hc
      rw [lines_newline] at h
      cases hcs : lines cs with
      | nil =>
        rw [hcs] at h
        cases h
      | cons k ks =>
        rw [hcs, List.dropLast_cons_of_ne_nil (List.cons_ne_nil _ _)] at h
        rcases List.mem_cons.1 h with rfl | h
        · exact List.mem_singleton.2 rfl
        · exact ih (hcs ▸ h)
    · rw [lines_cons_of_ne hc] at h
      cases hcs : lines cs with
      | nil =>
        rw [hcs] at h
        cases h
      | cons k ks =>
        rw [hcs, List.headD_cons, List.tail_cons] at h
        rw [hcs] at ih
        cases ks with
        | nil => cases h
        | cons j js =>
          rw [List.dropLast_cons_of_ne_nil (List.cons_ne_nil _ _)] at h ih
          rcases List.mem_cons.1 h with rfl | h
          · exact List.mem_cons_of_mem _ (ih List.mem_cons_self)
          · exact ih (List.mem_cons_of_mem _ h)

/-- A line feed that no span has a part in stands on a line without tokens. -/
theorem line_ne_of_outside {p : Cursor} {level : Nat} {ls : List (List Char)} {x y : List Char}
    (hl : ∀ l ∈ ls, '\n' ∉ l.dropLast) (hend : ∀ l ∈ ls.dropLast, '\n' ∈ l)
    (hfault : (scanLines level ls).fault = none) (hx : ls.flatten = x ++ '\n' :: y)
    (hout : Outside (locate p (scanLines level ls).pieces) (p.advance x).offset) :
    ∀ t ∈ locate p (scanLines level ls).pieces, t.span.line ≠ (p.advance x).line := by
  induction ls generalizing p level x with
  | nil => exact absurd hx.symm (by simp)
  | cons l ls ih =>
    obtain ⟨hl, hls⟩ := List.forall_mem_cons.1 hl
    rw [scanLines_cons, Scan.append] at hfault hout ⊢
    cases hf : (scanLine level l).1.fault with
    | some f =>
      rw [hf] at hfault
      exact absurd (hf.symm.trans hfault) (Option.some_ne_none f)
    | none =>
      rw [hf] at hfault hout
      dsimp only at hfault hout ⊢
      rw [locate_append, endOf_eq, texts_scanLine hl hf] at hout ⊢
      obtain ⟨hout, hout'⟩ := outside_append.1 hout
      rcases append_eq_append_cons hx with ⟨z, rfl⟩ | ⟨z, rfl, hz⟩
      · -- the line feed ends this line
        obtain rfl : z = [] := by
          by_contra hz
          rw [List.dropLast_append_of_ne_nil (List.cons_ne_nil _ _), List.dropLast_cons_of_ne_nil hz] at hl
          exact hl (List.mem_append_right _ List.mem_cons_self)
        rw [locate_eq_nil_of_outside hl hf hout, List.nil_append]
        intro t ht
        obtain ⟨-, -, -, hline⟩ := bounds_of_mem_locate ht
        simp only [Cursor.advance_line, List.count_append, List.count_singleton_self] at hline ⊢
        omega
      · have hne : ls ≠ [] := by
          rintro rfl
          exact absurd hz.symm (by simp)
        rw [List.dropLast_cons_of_ne_nil hne] at hend
        obtain ⟨hend, hends⟩ := List.forall_mem_cons.1 hend
        rw [Cursor.advance_append] at hout' ⊢
        refine List.forall_mem_append.2 ⟨fun t ht => ?_, ih hls hends hfault hz hout'⟩
        have hpos := List.count_pos_iff.2 hend
        rw [line_scanLine level l t ht]
        simp only [Cursor.advance_line]
        omega

/-! ### Whole texts -/

/-- A span is that of a part of a text, which stands behind `before`, and tells the line and the column there. -/
structure Marks (text : String) (s : Span) (before part : String) : Prop where
  split : ∃ after, text = before ++ part ++ after
  start : s.start = before.utf8ByteSize
  stop : s.stop = (before ++ part).utf8ByteSize
  line : s.line = 1 + before.toList.count '\n'
  column : s.column = 1 + (before.toList.reverse.takeWhile (· ≠ '\n')).length

/-- The ends of a part of a text are places between its characters. -/
theorem Marks.bounds {text : String} {s : Span} {before part : String} (h : Marks text s before part) :
    s.start ≤ s.stop ∧ s.stop ≤ text.utf8ByteSize ∧ (String.Pos.Raw.mk s.start).IsValid text ∧
      (String.Pos.Raw.mk s.stop).IsValid text := by
  obtain ⟨⟨after, rfl⟩, hstart, hstop, -, -⟩ := h
  refine ⟨?_, ?_, ?_, ?_⟩
  · rw [hstart, hstop, String.utf8ByteSize_append]
    exact Nat.le_add_right _ _
  · rw [hstop, String.utf8ByteSize_append (s := before ++ part)]
    exact Nat.le_add_right _ _
  · refine String.Pos.Raw.isValid_iff_exists_append.2 ⟨before, part ++ after, String.append_assoc, ?_⟩
    rw [hstart]
    rfl
  · refine String.Pos.Raw.isValid_iff_exists_append.2 ⟨before ++ part, after, rfl, ?_⟩
    rw [hstop]
    rfl

/-- A character of a comment: no line feed stands between it and a number sign that is part of no token. -/
def InComment (ts : List Token) (before : String) (c : Char) : Prop :=
  ∃ front rest, before ++ .singleton c = front ++ "#" ++ rest ∧ '\n' ∉ rest.toList ∧
    Outside ts front.utf8ByteSize

theorem marks_of_piece {text : String} {front back : List Piece} {q : Piece}
    (h : texts (front ++ q :: back) = text.toList) :
    Marks text ((({} : Cursor).advance (texts front)).spanOf q.text) (.ofList (texts front)) (.ofList q.text) where
  split := by
    refine ⟨.ofList (texts back), ?_⟩
    rw [← String.ofList_toList (s := text), ← h, ← String.ofList_append, ← String.ofList_append, texts_append,
      texts_cons, List.append_assoc]
  start := by rw [Cursor.spanOf_start, Cursor.advance_offset, Nat.zero_add]
  stop := by
    simp only [String.utf8ByteSize_append, Cursor.spanOf, Cursor.advance_offset, Nat.zero_add]
  line := by rw [String.toList_ofList, Cursor.spanOf, Cursor.advance_line]
  column := by rw [String.toList_ofList, Cursor.spanOf, Cursor.advance_column]

/-- A word by itself is a text of its token. -/
theorem Word.tokens {k : TokenKind} {t : List Char} (h : Word k t) :
    ∃ us, tokens (.ofList t) = .ok us ∧ us.map Token.kind = [k, .newline, .eof] := by
  have hspaced : Spaced [k] (t ++ ([] ++ [])) := .cons h (List.forall_mem_nil _) (fun _ hd => by cases hd) .nil
  simpa using tokens_of_spaced hspaced (List.cons_ne_nil _ _) (.inl rfl)

/-- What stands in no span is a blank, part of a comment, or the end of a line without tokens. -/
theorem outside_scan {text : List Char} (hfault : (scan text).fault = none) {x y : List Char} {c : Char}
    (hx : text = x ++ c :: y) (hout : Outside (locate {} (scan text).pieces) (({} : Cursor).advance x).offset) :
    isBlank c = true ∨
      (∃ a b, x ++ [c] = a ++ '#' :: b ∧ '\n' ∉ b ∧
        Outside (locate {} (scan text).pieces) (({} : Cursor).advance a).offset) ∨
      c = '\n' ∧ ∀ t ∈ locate {} (scan text).pieces, t.span.line ≠ (({} : Cursor).advance x).line := by
  have hlines : ∀ l ∈ lines text, '\n' ∉ l.dropLast := fun l hl => newline_not_mem_dropLast hl
  by_cases hc : c = '\n'
  · subst hc
    have hflatten : (lines text).flatten = x ++ '\n' :: y := (flatten_lines text).trans hx
    have hends : ∀ l ∈ (lines text).dropLast, '\n' ∈ l := fun l hl => newline_mem_of_mem_dropLast hl
    exact .inr (.inr ⟨rfl, line_ne_of_outside hlines hends hfault hflatten hout⟩)
  · obtain ⟨front, q, back, u, v, hpieces, hq, rfl⟩ := exists_piece ((texts_scan hfault).trans hx)
    rw [hpieces] at hout ⊢
    have hkinds := (outside_piece hq).1 hout
    have hquiet : ∀ q ∈ (scan text).pieces, q.kinds = [] → ∀ u c v, q.text = u ++ c :: v → c ≠ '\n' →
        isBlank c = true ∨ EndsInComment (u ++ [c]) := by
      refine forall_mem_scanLines 0 (fun l hl level q hmem => ?_) fun _ _ _ _ _ h => ?_
      · rcases quiet_scanLine (hlines l hl) with hquiet | ⟨h, hquiet⟩
        · exact fun hk u c v hsplit _ => hquiet q hmem hk u c v hsplit
        · rw [h] at hmem
          obtain rfl := List.mem_singleton.1 hmem
          intro _ u c v hsplit hc
          rcases hquiet u c v hsplit with h | h | h
          · exact .inl h
          · exact .inr h
          · exact absurd h hc
      · exact absurd h.symm (by simp)
    have hmem : q ∈ (scan text).pieces := hpieces ▸ List.mem_append_right _ List.mem_cons_self
    rcases hquiet q hmem hkinds u c v hq hc with hblank | ⟨a, b, hab, hb⟩
    · exact .inl hblank
    · -- the number sign stands in the same piece
      have hsign : q.text = a ++ '#' :: (b ++ v) := by
        rw [hq, List.append_cons, hab, List.append_assoc, List.cons_append]
      refine .inr (.inl ⟨texts front ++ a, b, ?_, hb, (outside_piece hsign).2 hkinds⟩)
      rw [List.append_assoc, hab, List.append_assoc]

/-- The spans of a text that has been scanned are those of parts of it, one behind the other, and each tells the
line and the column that it begins at.  The part of a word is a text of its token alone.  What stands in no span
is a blank, part of a comment, or the end of a line without tokens. -/
theorem tokens_tile {text : String} {ts : List Token} (h : tokens text = .ok ts) :
    (∀ t ∈ ts, (t.span.start ≤ t.span.stop ∧ t.span.stop ≤ text.utf8ByteSize ∧
        (String.Pos.Raw.mk t.span.start).IsValid text ∧ (String.Pos.Raw.mk t.span.stop).IsValid text) ∧
      ∃ before part, Marks text t.span before part ∧
        (t.kind.isContent = true → ∃ us, tokens part = .ok us ∧ us.map Token.kind = [t.kind, .newline, .eof])) ∧
    ts.Pairwise Follows ∧
    ∀ before c after, text = before ++ .singleton c ++ after → Outside ts before.utf8ByteSize →
      isBlank c = true ∨ InComment ts before c ∨
        c = '\n' ∧ ∀ t ∈ ts, t.span.line ≠ 1 + before.toList.count '\n' := by
  unfold tokens at h
  dsimp only at h
  split at h
  · rename_i hfault
    cases h
    refine ⟨fun t ht => ?_, pairwise_locate (proper_scan _), fun before c after hsplit hout => ?_⟩
    · obtain ⟨front, q, back, hpieces, hk, hspan⟩ := exists_of_mem_locate ht
      have htexts : texts (front ++ q :: back) = text.toList := hpieces ▸ texts_scan hfault
      have hmarks := marks_of_piece htexts
      rw [← hspan] at hmarks
      refine ⟨hmarks.bounds, _, _, hmarks, fun hcontent => ?_⟩
      have hproper := proper_scan text.toList q (hpieces ▸ List.mem_append_right _ List.mem_cons_self)
      cases hproper with
      | word hword => exact List.mem_singleton.1 hk ▸ hword.tokens
      | stop =>
        rw [List.mem_singleton.1 hk] at hcontent
        cases hcontent
      | marks hlayout =>
        have hsolid := hlayout _ hk
        rw [TokenKind.isSolid, hcontent] at hsolid
        cases hsolid
    · have hlist : text.toList = before.toList ++ c :: after.toList := by
        rw [hsplit, String.toList_append, String.toList_append, String.toList_singleton, List.append_assoc]
        rfl
      have hplace : (({} : Cursor).advance before.toList).offset = before.utf8ByteSize := by
        rw [Cursor.advance_offset, String.ofList_toList, Nat.zero_add]
      rcases outside_scan hfault hlist (hplace ▸ hout) with hblank | ⟨a, b, hab, hb, hsign⟩ | ⟨hc, hline⟩
      · exact .inl hblank
      · refine .inr (.inl ⟨.ofList a, .ofList b, ?_, by rwa [String.toList_ofList], ?_⟩)
        · refine String.toList_injective ?_
          simpa [String.toList_append, String.toList_singleton, String.toList_ofList] using hab
        · rwa [Cursor.advance_offset, Nat.zero_add] at hsign
      · refine .inr (.inr ⟨hc, ?_⟩)
        rwa [Cursor.advance_line] at hline
  · cases h

/-- A letter of a comment behind a name. -/
theorem tokens_tile_comment :
    let ts : List Token := [⟨.name "a", ⟨0, 1, 1, 1⟩⟩, ⟨.newline, ⟨5, 6, 1, 6⟩⟩, ⟨.eof, ⟨7, 7, 3, 1⟩⟩]
    tokens "a # b\n\n" = .ok ts ∧ ts.Pairwise Follows ∧ InComment ts "a # " 'b' := by
  intro ts
  have hread : tokens "a # b\n\n" = .ok ts := by decide +kernel
  obtain ⟨-, hfollows, hrest⟩ := tokens_tile hread
  have hletter : Outside ts "a # ".utf8ByteSize := by
    unfold Outside
    decide
  refine ⟨hread, hfollows, ?_⟩
  rcases hrest "a # " 'b' "\n\n" (by decide) hletter with h | h | ⟨h, -⟩
  · cases h
  · exact h
  · exact absurd h (by decide)

end Source

end ClassScript

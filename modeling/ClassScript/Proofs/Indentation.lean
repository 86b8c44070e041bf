import ClassScript.Proofs.TokenSpans

/-!
# Indentation and layout marks

A line is significant if it holds more than blanks and a comment.  The tokens of a text are those of its
significant lines: marks for the change of level, words, and the end of the line; behind the last line all levels
are left.  So the marks in front of a word add up to the level of its line.  A text with a significant line of an
odd number of spaces, or with a tab in front of a line, has no tokens.  Main statement: `tokens_mirror`.
-/

namespace ClassScript.Source

/-! ### The front of a line -/

/-- The number of spaces that a line begins with.  Carriage returns among them do not count. -/
def indentOf (line : List Char) : Nat := (line.takeWhile isMargin).count ' '

/-- Behind the spaces and carriage returns that it begins with, the line goes on with something else than its end
or a comment. -/
def Significant (line : List Char) : Prop := ∃ c ∈ (line.dropWhile isMargin).head?, c ≠ '\n' ∧ c ≠ '#'

/-- There is a tab among the blanks that the line begins with. -/
def Tabbed (line : List Char) : Prop := '\t' ∈ line.takeWhile isBlank

/-- The first tab in front of a line stands right behind its margin. -/
theorem Tabbed.margin {line : List Char} (h : Tabbed line) : ∃ rest, line.dropWhile isMargin = '\t' :: rest := by
  unfold Tabbed at h
  induction line with
  | nil => cases h
  | cons c cs ih =>
    by_cases hc : isMargin c = true
    · rw [List.takeWhile_cons_of_pos (isBlank_of_isMargin hc)] at h
      rw [List.dropWhile_cons_of_pos hc]
      rcases List.mem_cons.1 h with rfl | h
      · cases hc
      · exact ih h
    · rw [List.dropWhile_cons_of_neg hc]
      by_cases hb : isBlank c = true
      · obtain rfl : c = '\t' := by
          simp only [isBlank, isMargin, Bool.or_eq_true, decide_eq_true_eq, not_or] at hb hc
          tauto
        exact ⟨cs, rfl⟩
      · rw [List.takeWhile_cons_of_neg hb] at h
        cases h

/-- A line of blanks or a comment alone has no tokens. -/
theorem scanLine_of_not_significant {line : List Char} (h : ¬ Significant line) (level : Nat) :
    scanLine level line = (⟨[⟨line, []⟩], none⟩, level) := by
  unfold scanLine
  dsimp only
  split
  · rfl
  · rename_i c body hbody
    have hc : c = '\n' ∨ c = '#' := by
      by_contra hne
      exact h ⟨c, by rw [hbody]; rfl, not_or.1 hne⟩
    rw [if_neg (by rcases hc with rfl | rfl <;> decide), if_pos hc]

/-- Any other line has a fault, or it begins with a whole number of levels and no tab. -/
theorem scanLine_of_significant {line : List Char} (h : Significant line) (level : Nat) :
    (∃ f text, scanLine level line = (.failed f text, level) ∧
      (indentOf line % 2 = 1 ∨ ∃ rest, line.dropWhile isMargin = '\t' :: rest)) ∨
    indentOf line % 2 = 0 ∧ (∀ rest, line.dropWhile isMargin ≠ '\t' :: rest) ∧
      scanLine level line =
        ((scanBody (line.dropWhile isMargin)).cons
          ⟨line.takeWhile isMargin, levelMarks level (indentOf line / 2)⟩, indentOf line / 2) := by
  obtain ⟨c, hc, hne⟩ := h
  obtain ⟨body, hbody⟩ := List.head?_eq_some_iff.1 hc
  unfold scanLine indentOf
  rw [hbody]
  dsimp only
  by_cases ht : c = '\t'
  · subst ht
    exact .inl ⟨_, _, by rw [if_pos rfl], .inr ⟨_, rfl⟩⟩
  rw [if_neg ht, if_neg (not_or.2 hne)]
  by_cases hw : (line.takeWhile isMargin).count ' ' % 2 = 0
  · rw [if_pos hw]
    exact .inr ⟨hw, fun rest hr => ht (List.cons.inj hr).1, rfl⟩
  · rw [if_neg hw]
    exact .inl ⟨_, _, rfl, .inl (by omega)⟩

/-- A line without a fault does not begin with a tab, nor, if it is significant, with an odd number of spaces. -/
theorem regular_of_fault_eq_none {level : Nat} {line : List Char} (h : (scanLine level line).1.fault = none) :
    (Significant line → indentOf line % 2 = 0) ∧ ¬ Tabbed line := by
  by_cases hs : Significant line
  · rcases scanLine_of_significant hs level with ⟨f, text, heq, -⟩ | ⟨heven, htab, -⟩
    · rw [heq] at h
      cases h
    · refine ⟨fun _ => heven, fun ht => ?_⟩
      obtain ⟨rest, hrest⟩ := ht.margin
      exact htab rest hrest
  · refine ⟨fun h => absurd h hs, fun ht => hs ?_⟩
    obtain ⟨rest, hrest⟩ := ht.margin
    exact ⟨'\t', by rw [hrest]; rfl, by decide⟩

theorem levelMarks_eq (old new : Nat) :
    levelMarks old new = .replicate (new - old) .indent ++ .replicate (old - new) .dedent := by
  unfold levelMarks
  split
  · rw [show old - new = 0 by omega, List.replicate_zero, List.append_nil]
  · rw [show new - old = 0 by omega, List.replicate_zero, List.nil_append]

/-! ### The words of a line -/

theorem Word.isContent {k : TokenKind} {t : List Char} (h : Word k t) : k.isContent = true := by
  cases h with
  | word =>
    unfold TokenKind.ofWord
    split <;> rfl
  | @pair c k h =>
    unfold withEquals? at h
    split at h <;> cases h <;> rfl
  | _ => rfl

/-- A line without a fault has words behind its margin, and then its end. -/
theorem kinds_scanBody {cs : List Char} (h : (scanBody cs).fault = none) :
    ∃ words, (scanBody cs).pieces.flatMap Piece.kinds = words ++ [.newline] ∧
      (∀ k ∈ words, k.isContent = true) ∧
      (∀ c ∈ cs.head?, c ≠ '\n' → isBlank c = false → c ≠ '#' → words ≠ []) := by
  fun_induction scanBody cs with
  | case1 => exact ⟨[], rfl, List.forall_mem_nil _, fun c hc => by cases hc⟩
  | case2 cs =>
    refine ⟨[], rfl, List.forall_mem_nil _, fun c hc hne => ?_⟩
    obtain rfl : '\n' = c := Option.some.inj hc
    exact absurd rfl hne
  | case3 c cs hn hb ih =>
    obtain ⟨words, hkinds, hwords, -⟩ := ih h
    refine ⟨words, hkinds, hwords, fun d hd _ hblank => ?_⟩
    obtain rfl : c = d := Option.some.inj hd
    rw [hb] at hblank
    cases hblank
  | case4 cs _ _ ih =>
    obtain ⟨words, hkinds, hwords, -⟩ := ih h
    refine ⟨words, hkinds, hwords, fun d hd _ _ hne => ?_⟩
    obtain rfl : '#' = d := Option.some.inj hd
    exact absurd rfl hne
  | case5 c cs _ _ hc k n hk ih =>
    obtain ⟨words, hkinds, hwords, -⟩ := ih h
    refine ⟨k :: words, ?_, List.forall_mem_cons.2 ⟨(word_of_lexeme hc hk).isContent, hwords⟩,
      fun _ _ _ _ _ => List.cons_ne_nil _ _⟩
    rw [Scan.cons_pieces, List.flatMap_cons, hkinds]
    rfl
  | case6 => cases h

/-! ### Tokens line by line -/

/-- `Mirrors n v ls ts`: where the last significant line began with `v` spaces and the first of the lines `ls` has
the number `n`, the tokens `ts` are those of the lines `ls` and of the end of the text. -/
inductive Mirrors : Nat → Nat → List (List Char) → List Token → Prop
  | finish {n v : Nat} {marks : List Token} {last : Token}
    (dedents : marks.map Token.kind = .replicate (v / 2) .dedent) (eof : last.kind = .eof) :
    Mirrors n v [] (marks ++ [last])
  | quiet {n v : Nat} {l : List Char} {ls : List (List Char)} {ts : List Token} (h : ¬ Significant l)
    (rest : Mirrors (n + 1) v ls ts) : Mirrors n v (l :: ls) ts
  | line {n v : Nat} {l : List Char} {ls : List (List Char)} {marks words ts : List Token} {stop : Token}
    (h : Significant l) (even : indentOf l % 2 = 0)
    (change : marks.map Token.kind = .replicate (indentOf l / 2 - v / 2) .indent ++
      .replicate (v / 2 - indentOf l / 2) .dedent)
    (ne : words ≠ []) (content : ∀ t ∈ words, t.kind.isContent = true) (newline : stop.kind = .newline)
    (here : ∀ t ∈ marks ++ words ++ [stop], t.span.line = n) (rest : Mirrors (n + 1) (indentOf l) ls ts) :
    Mirrors n v (l :: ls) (marks ++ words ++ stop :: ts)

/-- The tokens of a significant line are marks, words and the end of the line. -/
theorem locate_scanLine {p : Cursor} {level : Nat} {l : List Char} (h : Significant l)
    (hfault : (scanLine level l).1.fault = none) :
    (scanLine level l).2 = indentOf l / 2 ∧
    ∃ marks words stop, locate p (scanLine level l).1.pieces = marks ++ words ++ [stop] ∧
      marks.map Token.kind = .replicate (indentOf l / 2 - level) .indent ++
        .replicate (level - indentOf l / 2) .dedent ∧
      words ≠ [] ∧ (∀ t ∈ words, t.kind.isContent = true) ∧ stop.kind = .newline := by
  rcases scanLine_of_significant h level with ⟨f, text, heq, -⟩ | ⟨-, htab, heq⟩
  · rw [heq] at hfault
    cases hfault
  rw [heq] at hfault ⊢
  have hbody : (scanBody (l.dropWhile isMargin)).fault = none := hfault
  obtain ⟨words, hkinds, hcontent, hne⟩ := kinds_scanBody hbody
  refine ⟨rfl, ?_⟩
  -- the first character behind the margin is no blank, so it begins a word
  have hwords : words ≠ [] := by
    obtain ⟨c, hc, hnewline, hcomment⟩ := h
    obtain ⟨rest, hrest⟩ := List.head?_eq_some_iff.1 hc
    have hmargin : ¬ isMargin c = true := by
      have := List.head?_dropWhile_not isMargin l
      rw [hc] at this
      simpa using this
    refine hne c hc hnewline ?_ hcomment
    rw [Bool.eq_false_iff]
    intro hb
    refine htab rest ?_
    rw [hrest]
    congr 1
    simp only [isBlank, isMargin, Bool.or_eq_true, decide_eq_true_eq, not_or] at hb hmargin
    tauto
  have hmap : (locate p (Scan.cons ⟨l.takeWhile isMargin, levelMarks level (indentOf l / 2)⟩
      (scanBody (l.dropWhile isMargin))).pieces).map Token.kind =
        levelMarks level (indentOf l / 2) ++ words ++ [.newline] := by
    rw [map_kind_locate, Scan.cons_pieces, List.flatMap_cons, hkinds, List.append_assoc]
  obtain ⟨front, back, hts, hfront, hback⟩ := List.map_eq_append_iff.1 hmap
  obtain ⟨marks, middle, rfl, hmarks, hmiddle⟩ := List.map_eq_append_iff.1 hfront
  obtain ⟨stop, rfl, hstop⟩ := List.map_eq_singleton_iff.1 hback
  refine ⟨marks, middle, stop, hts, by rw [hmarks, levelMarks_eq], ?_, fun t ht => ?_, hstop⟩
  · rintro rfl
    exact hwords hmiddle.symm
  · exact hcontent _ (hmiddle ▸ List.mem_map_of_mem ht)

/-- Behind the last line all levels are left. -/
theorem mirrors_end (n v : Nat) (p : Cursor) : Mirrors n v [] (locate p (scanLines (v / 2) []).pieces) := by
  have hmap : (locate p (scanLines (v / 2) []).pieces).map Token.kind =
      List.replicate (v / 2) TokenKind.dedent ++ [.eof] := by
    rw [map_kind_locate]
    exact List.append_nil _
  obtain ⟨marks, back, hts, hmarks, hback⟩ := List.map_eq_append_iff.1 hmap
  obtain ⟨last, rfl, hlast⟩ := List.map_eq_singleton_iff.1 hback
  rw [hts]
  exact .finish hmarks hlast

theorem count_newline {l : List Char} (h : '\n' ∈ l) (hl : '\n' ∉ l.dropLast) : l.count '\n' = 1 := by
  rcases List.eq_nil_or_concat l with rfl | ⟨front, c, rfl⟩
  · cases h
  · rw [List.concat_eq_append, List.dropLast_concat] at hl
    rw [List.concat_eq_append] at h ⊢
    rcases List.mem_append.1 h with h | h
    · exact absurd h hl
    · rw [List.count_append, List.count_eq_zero.2 hl, ← List.mem_singleton.1 h]
      rfl

/-- The tokens of lines mirror them, where each line but the last ends with its only line feed. -/
theorem mirrors_scanLines {ls : List (List Char)} {p : Cursor} {v : Nat}
    (hl : ∀ l ∈ ls, '\n' ∉ l.dropLast) (hend : ∀ l ∈ ls.dropLast, '\n' ∈ l)
    (hfault : (scanLines (v / 2) ls).fault = none) :
    Mirrors p.line v ls (locate p (scanLines (v / 2) ls).pieces) := by
  induction ls generalizing p v with
  | nil => exact mirrors_end p.line v p
  | cons l ls ih =>
    obtain ⟨hfirst, hls⟩ := List.forall_mem_cons.1 hl
    rw [scanLines_cons, Scan.append] at hfault ⊢
    cases hf : (scanLine (v / 2) l).1.fault with
    | some f =>
      rw [hf] at hfault
      exact absurd (hf.symm.trans hfault) (Option.some_ne_none f)
    | none =>
      rw [hf] at hfault
      dsimp only at hfault ⊢
      rw [locate_append, endOf_eq, texts_scanLine hfirst hf]
      -- a line behind this one has the next number
      have hrest : ∀ w, (scanLines (w / 2) ls).fault = none →
          Mirrors (p.line + 1) w ls (locate (p.advance l) (scanLines (w / 2) ls).pieces) := by
        intro w hw
        by_cases hne : ls = []
        · subst hne
          exact mirrors_end _ w _
        · rw [List.dropLast_cons_of_ne_nil hne] at hend
          obtain ⟨hnewline, hends⟩ := List.forall_mem_cons.1 hend
          have := ih (p := p.advance l) hls hends hw
          rwa [Cursor.advance_line, count_newline hnewline hfirst] at this
      by_cases hs : Significant l
      · obtain ⟨hlevel, marks, words, stop, hts, hmarks, hne, hcontent, hstop⟩ := locate_scanLine (p := p) hs hf
        have hhere := line_scanLine (p := p) (v / 2) l
        rw [hlevel] at hfault ⊢
        rw [hts] at hhere ⊢
        rw [List.append_assoc _ [stop], List.singleton_append]
        exact .line hs ((regular_of_fault_eq_none hf).1 hs) hmarks hne hcontent hstop hhere (hrest _ hfault)
      · rw [scanLine_of_not_significant hs] at hfault ⊢
        exact .quiet hs (hrest _ hfault)

/-! ### Levels -/

theorem prefix_of_prefix_append {α : Type} {a b u : List α} (h : u <+: a ++ b) :
    u <+: a ∨ ∃ v, u = a ++ v ∧ v <+: b := by
  obtain ⟨w, hw⟩ := h
  rcases List.append_eq_append_iff.1 hw with ⟨z, ha, -⟩ | ⟨z, hu, hb⟩
  · exact .inl ⟨z, ha.symm⟩
  · exact .inr ⟨z, hu, w, hb.symm⟩

/-- How many levels are entered more than left. -/
def balance (ts : List Token) : Int :=
  (ts.map Token.kind).count .indent - (ts.map Token.kind).count .dedent

@[simp] theorem balance_append (ts us : List Token) : balance (ts ++ us) = balance ts + balance us := by
  simp only [balance, List.map_append, List.count_append]
  omega

theorem balance_of_isSolid {ts : List Token} (h : ∀ t ∈ ts, t.kind.isSolid = true) : balance ts = 0 := by
  have hnot : ∀ k : TokenKind, k.isSolid = false → k ∉ ts.map Token.kind := by
    intro k hk hm
    obtain ⟨t, ht, rfl⟩ := List.mem_map.1 hm
    rw [h t ht] at hk
    cases hk
  rw [balance, List.count_eq_zero.2 (hnot _ rfl), List.count_eq_zero.2 (hnot _ rfl)]
  rfl

/-- The marks of a change of level add up to it. -/
theorem balance_marks {marks : List Token} {old new : Nat}
    (h : marks.map Token.kind = .replicate (new - old) .indent ++ .replicate (old - new) .dedent) :
    old + balance marks = new := by
  rw [balance, h]
  simp only [List.count_append, List.count_replicate, beq_iff_eq, reduceCtorEq, if_true, if_false]
  omega

/-- No beginning of the marks of a change of level leaves more levels than there are. -/
theorem balance_prefix_marks {marks front : List Token} {old new : Nat}
    (h : marks.map Token.kind = .replicate (new - old) .indent ++ .replicate (old - new) .dedent)
    (hfront : front <+: marks) : 0 ≤ old + balance front := by
  have hle : (front.map Token.kind).count .dedent ≤ (marks.map Token.kind).count .dedent :=
    (hfront.map Token.kind).sublist.count_le _
  rw [h] at hle
  simp only [List.count_append, List.count_replicate, beq_iff_eq, reduceCtorEq, if_true, if_false] at hle
  unfold balance
  omega

/-- The tokens `ts` of the lines `ls` never leave more levels than there are, `level` of which are open before them.
In front of each word, and of the end of each line, as many are open as the line has by its spaces; in the end none
is. The number of the first line is `n`. -/
structure Levels (n level : Nat) (ls : List (List Char)) (ts : List Token) : Prop where
  nonneg : ∀ front, front <+: ts → 0 ≤ level + balance front
  line : ∀ front t back, ts = front ++ t :: back → t.kind.isSolid = true →
    n ≤ t.span.line ∧ ∃ l, ls[t.span.line - n]? = some l ∧ Significant l ∧
      level + balance front = (indentOf l / 2 : Nat)
  finish : level + balance ts = 0

/-- The marks of a change of level are not solid. -/
theorem not_mem_marks {marks : List Token} {old new : Nat}
    (h : marks.map Token.kind = .replicate (new - old) .indent ++ .replicate (old - new) .dedent) {t : Token}
    (ht : t.kind.isSolid = true) : t ∉ marks := by
  intro hm
  have hk := List.mem_map_of_mem (f := Token.kind) hm
  rw [h] at hk
  rcases List.mem_append.1 hk with hk | hk <;> rw [List.eq_of_mem_replicate hk] at ht <;> cases ht

theorem getElem?_next_line {l : List Char} {ls : List (List Char)} {i n : Nat} (h : n + 1 ≤ i) :
    (l :: ls)[i - n]? = ls[i - (n + 1)]? := by
  rw [show i - n = i - (n + 1) + 1 by omega, List.getElem?_cons_succ]

/-- Behind the last line all levels are left. -/
theorem levels_end {n level : Nat} {marks : List Token} {last : Token}
    (hmarks : marks.map Token.kind = .replicate level .dedent) (hlast : last.kind = .eof) :
    Levels n level [] (marks ++ [last]) := by
  have hchange : marks.map Token.kind = .replicate (0 - level) .indent ++ .replicate (level - 0) .dedent := by
    rw [hmarks, Nat.zero_sub, List.replicate_zero, List.nil_append, Nat.sub_zero]
  have hzero : balance [last] = 0 := by
    rw [balance, List.map_singleton, hlast]
    rfl
  have hsum := balance_marks hchange
  refine ⟨fun front hfront => ?_, fun front t back hsplit hsolid => ?_, ?_⟩
  · rcases List.prefix_concat_iff.1 hfront with rfl | hfront
    · rw [balance_append, hzero]
      omega
    · exact balance_prefix_marks hchange hfront
  · have ht : t ∈ marks ++ [last] := hsplit ▸ List.mem_append_right _ List.mem_cons_self
    rcases List.mem_append.1 ht with ht | ht
    · exact absurd ht (not_mem_marks hchange hsolid)
    · rw [List.mem_singleton.1 ht, hlast] at hsolid
      cases hsolid
  · rw [balance_append, hzero]
    omega

/-- A line without tokens may stand in front. -/
theorem Levels.quiet {n level : Nat} {ls : List (List Char)} {ts : List Token} (h : Levels (n + 1) level ls ts)
    (l : List Char) : Levels n level (l :: ls) ts := by
  refine ⟨h.nonneg, fun front t back hsplit hsolid => ?_, h.finish⟩
  obtain ⟨hn, hline⟩ := h.line front t back hsplit hsolid
  rw [← getElem?_next_line (l := l) hn] at hline
  exact ⟨by omega, hline⟩

/-- A significant line may stand in front with its marks and the solid tokens behind them. -/
theorem Levels.significant {n level : Nat} {l : List Char} {ls : List (List Char)} {marks words ts : List Token}
    (h : Levels (n + 1) (indentOf l / 2) ls ts) (hl : Significant l)
    (hchange : marks.map Token.kind =
      .replicate (indentOf l / 2 - level) .indent ++ .replicate (level - indentOf l / 2) .dedent)
    (hsolid : ∀ t ∈ words, t.kind.isSolid = true) (hhere : ∀ t ∈ words, t.span.line = n) :
    Levels n level (l :: ls) (marks ++ (words ++ ts)) := by
  have hsum := balance_marks hchange
  have hzero {front : List Token} (hfront : front <+: words) : balance front = 0 :=
    balance_of_isSolid fun t ht => hsolid t (hfront.subset ht)
  refine ⟨fun front hfront => ?_, fun front t back hsplit ht => ?_, ?_⟩
  · rcases prefix_of_prefix_append hfront with hfront | ⟨y, rfl, hy⟩
    · exact balance_prefix_marks hchange hfront
    rcases prefix_of_prefix_append hy with hy | ⟨z, rfl, hz⟩
    · rw [balance_append, hzero hy]
      omega
    · have := h.nonneg z hz
      rw [balance_append, balance_append, hzero (List.prefix_refl _)]
      omega
  · -- the token stands among the marks, in this line or behind it
    rcases append_eq_append_cons hsplit with ⟨z, rfl⟩ | ⟨z, rfl, hz⟩
    · exact absurd (List.mem_append_right _ List.mem_cons_self) (not_mem_marks hchange ht)
    rcases append_eq_append_cons hz with ⟨y, hy⟩ | ⟨y, rfl, hy⟩
    · have hline := hhere t (hy ▸ List.mem_append_right _ List.mem_cons_self)
      refine ⟨hline.ge, l, by rw [hline, Nat.sub_self]; rfl, hl, ?_⟩
      rw [balance_append, hzero ⟨t :: y, hy.symm⟩]
      omega
    · obtain ⟨hn, k, hk, hs, hlevel⟩ := h.line y t back hy ht
      rw [← getElem?_next_line (l := l) hn] at hk
      refine ⟨by omega, k, hk, hs, ?_⟩
      rw [balance_append, balance_append, hzero (List.prefix_refl _)]
      omega
  · have := h.finish
    rw [balance_append, balance_append, hzero (List.prefix_refl _)]
    omega

/-- The tokens that mirror lines keep their levels. -/
theorem Mirrors.levels {n v : Nat} {ls : List (List Char)} {ts : List Token} (h : Mirrors n v ls ts) :
    Levels n (v / 2) ls ts := by
  induction h with
  | finish dedents eof => exact levels_end dedents eof
  | @quiet n v l ls ts _ _ ih => exact ih.quiet l
  | @line n v l ls marks words ts stop h even change ne content newline here _ ih =>
    have hsolid : ∀ t ∈ words ++ [stop], t.kind.isSolid = true := by
      refine List.forall_mem_append.2 ⟨fun t ht => ?_, List.forall_mem_singleton.2 ?_⟩
      · rw [TokenKind.isSolid, content t ht, Bool.true_or]
      · rw [newline]
        rfl
    rw [List.append_assoc] at here
    have htokens : marks ++ words ++ stop :: ts = marks ++ (words ++ [stop] ++ ts) := by simp
    rw [htokens]
    exact ih.significant h change hsolid fun t ht => here t (List.mem_append_right _ ht)

/-! ### Whole texts -/

/-- Lines without a fault have whole levels and no tabs in front. -/
theorem regular_of_scanLines {ls : List (List Char)} {level : Nat} (h : (scanLines level ls).fault = none) :
    ∀ l ∈ ls, (Significant l → indentOf l % 2 = 0) ∧ ¬ Tabbed l := by
  induction ls generalizing level with
  | nil => exact List.forall_mem_nil _
  | cons l ls ih =>
    rw [scanLines_cons, Scan.append] at h
    cases hf : (scanLine level l).1.fault with
    | some f =>
      rw [hf] at h
      exact absurd (hf.symm.trans h) (Option.some_ne_none f)
    | none =>
      rw [hf] at h
      exact List.forall_mem_cons.2 ⟨regular_of_fault_eq_none hf, ih h⟩

/-- The tokens of a text are those of its significant lines, one after the other, and the marks among them keep to
the levels that the lines have by their spaces.  Where a significant line begins with an odd number of spaces, or
any line with a tab, the text has no tokens. -/
theorem tokens_mirror (text : String) :
    (∀ ts, tokens text = .ok ts →
      Mirrors 1 0 (lines text.toList) ts ∧ Levels 1 0 (lines text.toList) ts) ∧
    ((∃ l ∈ lines text.toList, Significant l ∧ indentOf l % 2 = 1 ∨ Tabbed l) →
      ∃ e, tokens text = .error e) := by
  constructor
  · intro ts h
    unfold tokens at h
    dsimp only at h
    split at h
    · rename_i hfault
      cases h
      have hmirrors : Mirrors 1 0 (lines text.toList) (locate {} (scan text.toList).pieces) :=
        mirrors_scanLines (p := {}) (v := 0) (fun l hl => newline_not_mem_dropLast hl)
          (fun l hl => newline_mem_of_mem_dropLast hl) hfault
      exact ⟨hmirrors, hmirrors.levels⟩
    · cases h
  · rintro ⟨l, hl, hbad⟩
    cases ht : tokens text with
    | error e => exact ⟨e, rfl⟩
    | ok ts =>
      obtain ⟨heven, htab⟩ := regular_of_scanLines (gives_of_tokens ht).1 l hl
      rcases hbad with ⟨hs, hodd⟩ | hbad
      · have := heven hs
        omega
      · exact absurd hbad htab

/-- Two levels at once, a carriage return at the end of a line, and a comment on a line of its own.  Then a tab. -/
theorem tokens_mirror_jump :
    let ts : List Token := [⟨.name "a", ⟨0, 1, 1, 1⟩⟩, ⟨.newline, ⟨1, 2, 1, 2⟩⟩, ⟨.indent, ⟨2, 6, 2, 1⟩⟩,
      ⟨.indent, ⟨2, 6, 2, 1⟩⟩, ⟨.name "b", ⟨6, 7, 2, 5⟩⟩, ⟨.newline, ⟨8, 9, 2, 7⟩⟩, ⟨.dedent, ⟨15, 17, 4, 1⟩⟩,
      ⟨.name "d", ⟨17, 18, 4, 3⟩⟩, ⟨.newline, ⟨18, 18, 4, 4⟩⟩, ⟨.dedent, ⟨18, 18, 4, 4⟩⟩,
      ⟨.eof, ⟨18, 18, 4, 4⟩⟩]
    tokens "a\n    b\r\n \r# c\n  d" = .ok ts ∧ Mirrors 1 0 (lines "a\n    b\r\n \r# c\n  d".toList) ts ∧
      (∃ l ∈ lines "a\n \tb".toList, Tabbed l) ∧ ∃ e, tokens "a\n \tb" = .error e := by
  intro ts
  have hread : tokens "a\n    b\r\n \r# c\n  d" = .ok ts := by decide +kernel
  have htab : ∃ l ∈ lines "a\n \tb".toList, Tabbed l := ⟨" \tb".toList, by decide, by unfold Tabbed; decide⟩
  obtain ⟨l, hl, ht⟩ := htab
  exact ⟨hread, ((tokens_mirror _).1 ts hread).1, ⟨l, hl, ht⟩, (tokens_mirror _).2 ⟨l, hl, .inr ht⟩⟩

end ClassScript.Source

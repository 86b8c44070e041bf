import ClassScript.Proofs.Indentation
import Mathlib.Logic.Relation

/-!
# Edits that leave the tokens as they are

Carriage returns in front of the line feeds, lines of blanks and comments, blanks and comments behind the words of a
line, a line feed at the end of the text: none of these changes the kinds of the tokens, however many such edits are
made.  The case to look at is the last word of a line, which neither takes up what is put behind it nor has taken up
what stood there.  Main statement: `tokens_edited`.
-/

namespace ClassScript.Source

/-! ### Comments behind blanks -/

/-- Characters as `p` says, and perhaps a comment behind them. -/
def Trails (p : Char → Bool) (t : List Char) : Prop :=
  ∃ gap comment, t = gap ++ comment ∧ (∀ c ∈ gap, p c = true) ∧
    (comment = [] ∨ ∃ b, comment = '#' :: b ∧ '\n' ∉ b)

/-- The end of a line: a line feed, or the end of the text. -/
def IsStop (t : List Char) : Prop := t = [] ∨ t = ['\n']

theorem trails_of_forall {p : Char → Bool} {t : List Char} (h : ∀ c ∈ t, p c = true) : Trails p t :=
  ⟨t, [], (List.append_nil t).symm, h, .inl rfl⟩

theorem Trails.newline_not_mem {p : Char → Bool} {t : List Char} (h : Trails p t) (hp : p '\n' = false) :
    '\n' ∉ t := by
  obtain ⟨gap, comment, rfl, hgap, hcomment⟩ := h
  intro hm
  rcases List.mem_append.1 hm with hm | hm
  · rw [hgap _ hm] at hp
    cases hp
  · rcases hcomment with rfl | ⟨b, rfl, hb⟩
    · cases hm
    · rcases List.mem_cons.1 hm with h | hm
      · cases h
      · exact hb hm

/-- What follows the words of a line begins with no character that could belong to them. -/
theorem Trails.head {t stop : List Char} (h : Trails isBlank t) (hstop : IsStop stop) :
    ∀ c ∈ (t ++ stop).head?, isBlank c = true ∨ c = '#' ∨ c = '\n' := by
  obtain ⟨gap, comment, rfl, hgap, hcomment⟩ := h
  intro c hc
  cases gap with
  | cons d gap =>
    obtain rfl : d = c := Option.some.inj hc
    exact .inl (hgap d List.mem_cons_self)
  | nil =>
    rcases hcomment with rfl | ⟨b, rfl, -⟩
    · rcases hstop with rfl | rfl
      · cases hc
      · exact .inr (.inr (Option.some.inj hc).symm)
    · exact .inr (.inl (Option.some.inj hc).symm)

theorem dropWhile_ne_newline {t stop : List Char} (h : '\n' ∉ t) (hstop : IsStop stop) :
    (t ++ stop).dropWhile (· ≠ '\n') = stop := by
  have hall : ∀ c ∈ t, decide (c ≠ '\n') = true := by
    intro c hc
    simp only [ne_eq, decide_not, Bool.not_eq_true', decide_eq_false_iff_not]
    rintro rfl
    exact h hc
  rw [List.dropWhile_append_of_pos hall]
  rcases hstop with rfl | rfl
  · rfl
  · rfl

theorem scanBody_stop {stop : List Char} (hstop : IsStop stop) : (scanBody stop).Gives [.newline] := by
  rcases hstop with rfl | rfl
  · rw [scanBody]
    exact ⟨rfl, rfl⟩
  · rw [scanBody, if_pos rfl]
    exact ⟨rfl, rfl⟩

theorem scanBody_comment {cs stop : List Char} (h : '\n' ∉ cs) (hstop : IsStop stop) :
    (scanBody ('#' :: (cs ++ stop))).Gives [.newline] := by
  rw [scanBody, if_neg (by decide), if_neg (by decide), if_pos rfl, dropWhile_ne_newline h hstop]
  exact (scanBody_stop hstop).cons _

/-- Blanks and a comment have no tokens but the end of the line. -/
theorem scanBody_trails {t stop : List Char} (h : Trails isBlank t) (hstop : IsStop stop) :
    (scanBody (t ++ stop)).Gives [.newline] := by
  obtain ⟨gap, comment, rfl, hgap, hcomment⟩ := h
  rw [List.append_assoc]
  refine scanBody_gap hgap ?_
  rcases hcomment with rfl | ⟨b, rfl, hb⟩
  · exact scanBody_stop hstop
  · exact scanBody_comment hb hstop

/-! ### The last word of a line -/

theorem stop_of_takeWhile (p : Char → Bool) (cs : List Char) :
    ∀ d ∈ (cs.drop (cs.takeWhile p).length).head?, p d = false := by
  have hsplit : cs.drop (cs.takeWhile p).length = cs.dropWhile p := calc
    cs.drop (cs.takeWhile p).length
    _ = (cs.takeWhile p ++ cs.dropWhile p).drop (cs.takeWhile p).length := by
      rw [List.takeWhile_append_dropWhile]
    _ = cs.dropWhile p := List.drop_left
  rw [hsplit]
  intro d hd
  have hnot := List.head?_dropWhile_not p cs
  rw [hd] at hnot
  simpa using hnot

/-- A lexeme is read as far as it goes. -/
theorem stops_of_lexeme {c : Char} {cs : List Char} {k : TokenKind} {n : Nat} (h : lexeme c cs = .ok (k, n)) :
    Stops k (cs.drop n) := by
  intro d hd
  unfold lexeme at h
  cases he : withEquals? c with
  | some j =>
    rw [he] at h
    dsimp only at h
    split at h
    · cases h
      unfold withEquals? at he
      split at he <;> cases he <;> rfl
    · rename_i hhead
      cases h
      have hne : d ≠ '=' := by
        rintro rfl
        exact hhead hd
      rw [goesOn, decide_eq_false hne, Bool.and_false]
  | none =>
    rw [he] at h
    dsimp only at h
    split at h
    · cases hread : quoted c cs with
      | error f =>
        rw [hread] at h
        cases h
      | ok r =>
        rw [hread] at h
        cases h
        rfl
    split at h
    · unfold number at h
      dsimp only at h
      split at h
      · cases h
        exact stop_of_takeWhile _ cs d hd
      · cases h
    split at h
    · cases h
      rw [goesOn_ofWord]
      exact stop_of_takeWhile _ cs d hd
    split at h
    · cases h
      rw [goesOn, he]
      rfl
    · cases h

/-- No word ends with a blank or a line feed. -/
theorem Word.getLast {k : TokenKind} {t : List Char} (h : Word k t) :
    ∀ c ∈ t.getLast?, isBlank c = false ∧ c ≠ '\n' := by
  have hsolid : ∀ c : Char, (isBlank c = true ∨ c = '\n' → False) → isBlank c = false ∧ c ≠ '\n' := by
    intro c hc
    exact ⟨Bool.eq_false_iff.2 fun hb => hc (.inl hb), fun hn => hc (.inr hn)⟩
  have hcases : ∀ c : Char, isBlank c = true ∨ c = '\n' → c ∈ [' ', '\t', '\r', '\n'] := by
    intro c hc
    simpa [isBlank, or_assoc] using hc
  intro c hc
  refine hsolid c fun hblank => ?_
  have hmem := hcases c hblank
  have hin : c ∈ t := List.mem_of_getLast? hc
  simp only [List.mem_cons, List.not_mem_nil, or_false] at hmem
  cases h with
  | number digits =>
    have hd := digits c hin
    rcases hmem with rfl | rfl | rfl | rfl
    all_goals exact absurd hd (by decide)
  | word first rest =>
    rcases List.mem_cons.1 hin with rfl | hin
    · rcases hmem with rfl | rfl | rfl | rfl
      all_goals exact absurd first (by decide)
    · have hd := rest c hin
      rcases hmem with rfl | rfl | rfl | rfl
      all_goals exact absurd hd (by decide)
  | @string q s cs quote body =>
    rw [List.getLast?_concat] at hc
    obtain rfl : q = c := Option.some.inj hc
    rcases quote with rfl | rfl
    all_goals exact absurd hmem (by decide)
  | pair he =>
    obtain rfl : '=' = c := Option.some.inj hc
    exact absurd hmem (by decide)
  | @mark d hmark =>
    obtain rfl : d = c := Option.some.inj hc
    rcases hmem with rfl | rfl | rfl | rfl
    all_goals exact absurd hmark (by decide)

section

variable {c : Char} {cs gap stop : List Char} {k : TokenKind} {n : Nat} (hc : c ≠ '#')
  (hgap : ∀ d ∈ gap, isBlank d = true) (hstop : IsStop stop) (h : lexeme c (cs ++ (gap ++ stop)) = .ok (k, n))

include hc hgap hstop h

/-- A lexeme that is read before blanks and the end of the line has none of them. -/
theorem lexeme_length_le : n ≤ cs.length := by
  have hword := word_of_lexeme hc h
  obtain ⟨c', w, hw, -, hread⟩ := hword.lexeme
  obtain ⟨rfl, rfl⟩ := List.cons.inj hw
  have hlen : n ≤ (cs ++ (gap ++ stop)).length := by
    have hsame := hread _ (stops_of_lexeme h)
    rw [List.take_append_drop, h] at hsame
    have hn := congrArg Prod.snd (Except.ok.inj hsame)
    rw [List.length_take] at hn
    dsimp only at hn
    omega
  by_contra hlt
  have hne : (gap ++ stop).take (n - cs.length) ≠ [] := by
    intro hnil
    have hzero := congrArg List.length hnil
    rw [List.length_take, List.length_nil] at hzero
    rw [List.length_append] at hlen
    omega
  -- its last character would be a blank or the line feed
  obtain ⟨d, hd⟩ := Option.isSome_iff_exists.1 (List.getLast?_isSome.2 hne)
  have hlast : (c :: (cs ++ (gap ++ stop)).take n).getLast? = some d := by
    rw [List.take_append, List.take_of_length_le (by omega), ← List.cons_append, List.getLast?_append, hd]
    rfl
  obtain ⟨hblank, hnewline⟩ := hword.getLast d hlast
  rcases List.mem_append.1 (List.mem_of_mem_take (List.mem_of_getLast? hd)) with hm | hm
  · rw [hgap d hm] at hblank
    cases hblank
  · rcases hstop with rfl | rfl
    · cases hm
    · exact hnewline (List.mem_singleton.1 hm)

/-- It is read in the same way before anything else that cannot belong to a word. -/
theorem lexeme_before {t : List Char} (ht : ∀ d ∈ t.head?, isBlank d = true ∨ d = '#' ∨ d = '\n') :
    lexeme c (cs ++ t) = .ok (k, n) := by
  have hle := lexeme_length_le hc hgap hstop h
  have hstops := stops_of_lexeme h
  obtain ⟨c', w, hw, -, hread⟩ := (word_of_lexeme hc h).lexeme
  obtain ⟨rfl, rfl⟩ := List.cons.inj hw
  rw [List.take_append_of_le_length hle] at hread
  rw [List.drop_append_of_le_length hle] at hstops
  have hsame := hread (cs.drop n ++ t) ?_
  · rwa [← List.append_assoc, List.take_append_drop, List.length_take, Nat.min_eq_left hle] at hsame
  · intro d hd
    cases hrest : cs.drop n with
    | nil =>
      rw [hrest] at hd
      rcases ht d hd with hb | rfl | rfl
      · exact goesOn_of_isBlank k hb
      all_goals exact goesOn_eq_false (by decide) (by decide) (by decide) k
    | cons e es =>
      rw [hrest] at hd hstops
      exact hstops d hd

end

/-- The words of a line, told by a line with only blanks behind them, are the same with anything else that has no
tokens behind them. -/
theorem scanBody_retail {cs gap stop trailer stop' : List Char} {ks : List TokenKind} (hcs : '\n' ∉ cs)
    (hgap : ∀ c ∈ gap, isBlank c = true) (hstop : IsStop stop) (ht : Trails isBlank trailer) (hstop' : IsStop stop')
    (h : (scanBody (cs ++ (gap ++ stop))).Gives ks) : (scanBody (cs ++ (trailer ++ stop'))).Gives ks := by
  induction hlen : cs.length using Nat.strong_induction_on generalizing cs ks with
  | _ len ih =>
    subst hlen
    cases cs with
    | nil =>
      rw [List.nil_append] at h ⊢
      have hold := scanBody_trails (trails_of_forall hgap) hstop
      obtain rfl : [.newline] = ks := hold.2.symm.trans h.2
      exact scanBody_trails ht hstop'
    | cons c cs =>
      have hn : c ≠ '\n' := fun hn => hcs (hn ▸ List.mem_cons_self)
      have hcs' : '\n' ∉ cs := fun hm => hcs (List.mem_cons_of_mem _ hm)
      rw [List.cons_append] at h ⊢
      by_cases hb : isBlank c = true
      · rw [scanBody, if_neg hn, if_pos hb] at h ⊢
        obtain ⟨hfault, rfl⟩ := h
        exact (ih cs.length (by simp) hcs' ⟨hfault, rfl⟩ rfl).cons _
      by_cases hh : c = '#'
      · subst hh
        have hnewline : '\n' ∉ gap := fun hm => absurd (hgap _ hm) (by decide)
        have hall {t : List Char} (ht : '\n' ∉ t) : '\n' ∉ cs ++ t :=
          fun hm => (List.mem_append.1 hm).elim hcs' ht
        rw [← List.append_assoc] at h ⊢
        have hold := scanBody_comment (hall hnewline) hstop
        obtain rfl : [.newline] = ks := hold.2.symm.trans h.2
        exact scanBody_comment (hall (ht.newline_not_mem (by decide))) hstop'
      rw [scanBody, if_neg hn, if_neg hb, if_neg hh] at h ⊢
      cases hlex : lexeme c (cs ++ (gap ++ stop)) with
      | error f =>
        rw [hlex] at h
        cases h.1
      | ok r =>
        obtain ⟨k, n⟩ := r
        have hle := lexeme_length_le hh hgap hstop hlex
        rw [hlex] at h
        rw [lexeme_before hh hgap hstop hlex (ht.head hstop')]
        dsimp only at h ⊢
        rw [List.drop_append_of_le_length hle] at h ⊢
        rw [List.take_append_of_le_length hle] at h ⊢
        obtain ⟨hfault, rfl⟩ := h
        have hdrop : '\n' ∉ cs.drop n := fun hm => hcs' (List.mem_of_mem_drop hm)
        have hlen : (cs.drop n).length < (c :: cs).length := by
          rw [List.length_drop, List.length_cons]
          omega
        exact (ih _ hlen hdrop ⟨hfault, rfl⟩ rfl).cons _

/-! ### Lines -/

/-- Wherever the first line has tokens, the second has the same, and leads to the same level. -/
def SameLine (l l' : List Char) : Prop :=
  ∀ level ks, (scanLine level l).1.Gives ks →
    (scanLine level l').1.Gives ks ∧ (scanLine level l').2 = (scanLine level l).2

/-- Wherever the first lines have tokens, the second have the same. -/
def SameLines (ls ls' : List (List Char)) : Prop :=
  ∀ level ks, (scanLines level ls).Gives ks → (scanLines level ls').Gives ks

/-- What stands behind a line with words changes nothing in front of it. -/
theorem Significant.front_append {l : List Char} (h : Significant l) (t : List Char) :
    (l ++ t).takeWhile isMargin = l.takeWhile isMargin ∧
      (l ++ t).dropWhile isMargin = l.dropWhile isMargin ++ t := by
  induction l with
  | nil =>
    obtain ⟨c, hc, -⟩ := h
    cases hc
  | cons c cs ih =>
    rw [List.cons_append]
    by_cases hm : isMargin c = true
    · simp only [Significant, List.dropWhile_cons_of_pos hm] at h
      obtain ⟨htake, hdrop⟩ := ih h
      simp only [List.takeWhile_cons_of_pos hm, List.dropWhile_cons_of_pos hm, htake, hdrop, and_self]
    · simp only [List.takeWhile_cons_of_neg hm, List.dropWhile_cons_of_neg hm, List.cons_append, and_self]

theorem Significant.append {l : List Char} (h : Significant l) (t : List Char) : Significant (l ++ t) := by
  obtain ⟨c, hc, hne⟩ := h
  obtain ⟨rest, hrest⟩ := List.head?_eq_some_iff.1 hc
  refine ⟨c, ?_, hne⟩
  rw [(Significant.front_append ⟨c, hc, hne⟩ t).2, hrest]
  rfl

/-- Spaces, carriage returns and the end of the line put no words on a line. -/
theorem not_significant_append {l gap stop : List Char} (h : ¬ Significant l) (hgap : ∀ c ∈ gap, isMargin c = true)
    (hstop : IsStop stop) : ¬ Significant (l ++ (gap ++ stop)) := by
  induction l with
  | nil =>
    rintro ⟨c, hc, hne, -⟩
    rw [List.nil_append, List.dropWhile_append_of_pos hgap] at hc
    rcases hstop with rfl | rfl
    · cases hc
    · exact hne (Option.some.inj hc).symm
  | cons c cs ih =>
    rw [List.cons_append]
    by_cases hm : isMargin c = true
    · simp only [Significant, List.dropWhile_cons_of_pos hm] at h ⊢
      exact ih h
    · simp only [Significant, List.dropWhile_cons_of_neg hm] at h ⊢
      exact h

theorem not_significant_of_trails {t stop : List Char} (h : Trails isMargin t) (hstop : IsStop stop) :
    ¬ Significant (t ++ stop) := by
  obtain ⟨gap, comment, rfl, hgap, hcomment⟩ := h
  rintro ⟨c, hc, hn, hh⟩
  rw [List.append_assoc, List.dropWhile_append_of_pos hgap] at hc
  rcases hcomment with rfl | ⟨b, rfl, -⟩
  · rcases hstop with rfl | rfl
    · cases hc
    · exact hn (Option.some.inj hc).symm
  · exact hh (Option.some.inj hc).symm

theorem sameLine_of_not_significant {l l' : List Char} (h : ¬ Significant l) (h' : ¬ Significant l') :
    SameLine l l' := by
  intro level ks hks
  rw [scanLine_of_not_significant h] at hks ⊢
  rw [scanLine_of_not_significant h']
  exact ⟨hks, rfl⟩

/-- Behind the words of a line may stand anything that has no tokens. -/
theorem sameLine_trailer {l gap stop trailer stop' : List Char} (hs : Significant l) (hl : '\n' ∉ l)
    (hgap : ∀ c ∈ gap, isBlank c = true) (hstop : IsStop stop) (ht : Trails isBlank trailer)
    (hstop' : IsStop stop') : SameLine (l ++ (gap ++ stop)) (l ++ (trailer ++ stop')) := by
  intro level ks hks
  have hbody : '\n' ∉ l.dropWhile isMargin := fun hm => hl ((List.dropWhile_sublist _).subset hm)
  obtain ⟨htake, hdrop⟩ := hs.front_append (gap ++ stop)
  obtain ⟨htake', hdrop'⟩ := hs.front_append (trailer ++ stop')
  have hindent : indentOf (l ++ (trailer ++ stop')) = indentOf (l ++ (gap ++ stop)) := by
    rw [indentOf, indentOf, htake, htake']
  rcases scanLine_of_significant (hs.append (gap ++ stop)) level with ⟨f, text, heq, -⟩ | ⟨heven, htab, heq⟩
  · rw [heq] at hks
    cases hks.1
  rcases scanLine_of_significant (hs.append (trailer ++ stop')) level with ⟨f, text, -, hbad⟩ | ⟨-, -, heq'⟩
  · -- the front of the line is as it was, and has no fault
    obtain ⟨c, hc, -⟩ := hs
    obtain ⟨rest, hrest⟩ := List.head?_eq_some_iff.1 hc
    rw [hdrop', hrest] at hbad
    rw [hdrop, hrest] at htab
    rcases hbad with hodd | ⟨r, hr⟩
    · omega
    · obtain ⟨rfl, -⟩ := List.cons.inj hr
      exact absurd rfl (htab _)
  rw [heq, hdrop] at hks
  rw [heq, heq', hdrop', hindent, htake']
  rw [htake] at hks
  obtain ⟨hfault, rfl⟩ := hks
  exact ⟨(scanBody_retail hbody hgap hstop ht hstop' ⟨hfault, rfl⟩).cons _, rfl⟩

/-- Carriage returns at the end of a line, and a line feed behind it, change nothing on it. -/
theorem sameLine_stop {l gap stop gap' stop' : List Char} (hl : '\n' ∉ l) (hgap : ∀ c ∈ gap, isMargin c = true)
    (hstop : IsStop stop) (hgap' : ∀ c ∈ gap', isMargin c = true) (hstop' : IsStop stop') :
    SameLine (l ++ (gap ++ stop)) (l ++ (gap' ++ stop')) := by
  by_cases hs : Significant l
  · exact sameLine_trailer hs hl (fun c hc => isBlank_of_isMargin (hgap c hc)) hstop
      (trails_of_forall fun c hc => isBlank_of_isMargin (hgap' c hc)) hstop'
  · exact sameLine_of_not_significant (not_significant_append hs hgap hstop)
      (not_significant_append hs hgap' hstop')

namespace SameLines

variable {l l' : List Char} {ls ls' : List (List Char)}

theorem refl (ls : List (List Char)) : SameLines ls ls := fun _ _ h => h

theorem cons (h : SameLine l l') (hrest : SameLines ls ls') : SameLines (l :: ls) (l' :: ls') := by
  intro level ks hks
  rw [scanLines_cons] at hks ⊢
  obtain ⟨js, is, hline, hlines, rfl⟩ := hks.of_append
  obtain ⟨hline', hlevel⟩ := h level js hline
  rw [hlevel]
  exact hline'.append (hrest _ _ hlines)

theorem append_left (front : List (List Char)) (h : SameLines ls ls') : SameLines (front ++ ls) (front ++ ls') := by
  induction front with
  | nil => exact h
  | cons l front ih => exact cons (fun _ _ hks => ⟨hks, rfl⟩) ih

/-- A line without tokens may be put in. -/
theorem insert (h : ¬ Significant l) (ls : List (List Char)) : SameLines ls (l :: ls) := by
  intro level ks hks
  rw [scanLines_cons, scanLine_of_not_significant h]
  have hline : Scan.Gives ⟨[⟨l, []⟩], none⟩ [] := ⟨rfl, rfl⟩
  exact hline.append hks

/-- A line without tokens may be left out. -/
theorem remove (h : ¬ Significant l) (ls : List (List Char)) : SameLines (l :: ls) ls := by
  intro level ks hks
  rw [scanLines_cons, scanLine_of_not_significant h] at hks
  obtain ⟨js, is, ⟨-, rfl⟩, hlines, rfl⟩ := hks.of_append
  exact hlines

end SameLines

/-! ### Texts and their lines -/

/-- A text that a line may begin behind. -/
def Ended (front : List Char) : Prop := front = [] ∨ ∃ s, front = s ++ ['\n']

theorem lines_append_ended {front : List Char} (h : Ended front) (back : List Char) :
    lines (front ++ back) = lines front ++ lines back := by
  rcases h with rfl | ⟨s, rfl⟩
  · rfl
  · rw [List.append_assoc]
    exact lines_append_newline s back

theorem lines_line {line : List Char} (h : '\n' ∉ line) (back : List Char) :
    lines (line ++ '\n' :: back) = (line ++ ['\n']) :: lines back := by
  rw [lines_append_newline, lines_eq_singleton h (.inr rfl) (by simp), List.singleton_append]

theorem lines_last {line : List Char} (h : '\n' ∉ line) (hne : line ≠ []) : lines line = [line] := by
  have hlast : lines (line ++ []) = [line ++ []] := lines_eq_singleton h (.inl rfl) (by simpa using hne)
  rwa [List.append_nil] at hlast

/-- The last line of a text stands behind the last line feed. -/
theorem exists_last_line (s : List Char) : ∃ front line, s = front ++ line ∧ Ended front ∧ '\n' ∉ line := by
  induction s with
  | nil => exact ⟨[], [], rfl, .inl rfl, List.not_mem_nil⟩
  | cons c s ih =>
    obtain ⟨front, line, rfl, hfront, hline⟩ := ih
    rcases hfront with rfl | ⟨t, rfl⟩
    · by_cases hc : c = '\n'
      · subst hc
        exact ⟨['\n'], line, rfl, .inr ⟨[], rfl⟩, hline⟩
      · refine ⟨[], c :: line, rfl, .inl rfl, fun hm => ?_⟩
        rcases List.mem_cons.1 hm with h | hm
        · exact hc h.symm
        · exact hline hm
    · exact ⟨c :: t ++ ['\n'], line, rfl, .inr ⟨c :: t, rfl⟩, hline⟩

/-- A line feed at the end of a text may be put there or left out. -/
theorem sameLines_final (s : List Char) :
    SameLines (lines s) (lines (s ++ ['\n'])) ∧ SameLines (lines (s ++ ['\n'])) (lines s) := by
  obtain ⟨front, line, rfl, hfront, hline⟩ := exists_last_line s
  rw [List.append_assoc, lines_append_ended hfront, lines_append_ended hfront, lines_line hline, lines_nil]
  by_cases hne : line = []
  · subst hne
    have hquiet : ¬ Significant ([] ++ ['\n']) := not_significant_of_trails (trails_of_forall nofun) (.inr rfl)
    exact ⟨.append_left _ (.insert hquiet []), .append_left _ (.remove hquiet [])⟩
  · rw [lines_last hline hne]
    have hsame : SameLine (line ++ ([] ++ [])) (line ++ ([] ++ ['\n'])) :=
      sameLine_stop hline nofun (.inl rfl) nofun (.inr rfl)
    have hback : SameLine (line ++ ([] ++ ['\n'])) (line ++ ([] ++ [])) :=
      sameLine_stop hline nofun (.inr rfl) nofun (.inl rfl)
    simp only [List.nil_append, List.append_nil] at hsame hback
    exact ⟨.append_left _ (.cons hsame (.refl [])), .append_left _ (.cons hback (.refl []))⟩

/-- The text with a carriage return in front of each line feed. -/
def withReturns (s : List Char) : List Char := s.flatMap fun c => if c = '\n' then ['\r', '\n'] else [c]

theorem withReturns_of_not_mem {s : List Char} (h : '\n' ∉ s) : withReturns s = s := by
  induction s with
  | nil => rfl
  | cons c s ih =>
    rw [List.mem_cons, not_or] at h
    rw [withReturns, List.flatMap_cons, if_neg (Ne.symm h.1)]
    exact congrArg (c :: ·) (ih h.2)

theorem withReturns_line {line : List Char} (h : '\n' ∉ line) (back : List Char) :
    withReturns (line ++ '\n' :: back) = line ++ ['\r'] ++ '\n' :: withReturns back := by
  have hline := withReturns_of_not_mem h
  unfold withReturns at hline ⊢
  rw [List.flatMap_append, hline, List.flatMap_cons, if_pos rfl, List.append_assoc]
  rfl

/-- Carriage returns in front of all line feeds may be put there or left out. -/
theorem sameLines_withReturns (s : List Char) :
    SameLines (lines s) (lines (withReturns s)) ∧ SameLines (lines (withReturns s)) (lines s) := by
  induction hlen : s.length using Nat.strong_induction_on generalizing s with
  | _ len ih =>
    subst hlen
    by_cases hm : '\n' ∈ s
    · obtain ⟨line, back, rfl, hline⟩ := List.eq_append_cons_of_mem hm
      have hreturn : '\n' ∉ line ++ ['\r'] := by simp [hline]
      have hlt : back.length < (line ++ '\n' :: back).length := by
        rw [List.length_append, List.length_cons]
        omega
      obtain ⟨hto, hfrom⟩ := ih back.length hlt back rfl
      rw [withReturns_line hline, lines_line hreturn, lines_line hline]
      have hmargin : ∀ c ∈ ['\r'], isMargin c = true := List.forall_mem_singleton.2 rfl
      have hsame : SameLine (line ++ ([] ++ ['\n'])) (line ++ (['\r'] ++ ['\n'])) :=
        sameLine_stop hline nofun (.inr rfl) hmargin (.inr rfl)
      have hback : SameLine (line ++ (['\r'] ++ ['\n'])) (line ++ ([] ++ ['\n'])) :=
        sameLine_stop hline hmargin (.inr rfl) nofun (.inr rfl)
      rw [List.nil_append, ← List.append_assoc] at hsame hback
      exact ⟨.cons hsame hto, .cons hback hfrom⟩
    · rw [withReturns_of_not_mem hm]
      exact ⟨.refl _, .refl _⟩

/-- A line without tokens may stand at the end. -/
theorem sameLines_quiet {t : List Char} (h : Trails isMargin t) : SameLines [] (lines t) := by
  by_cases hne : t = []
  · rw [hne, lines_nil]
    exact .refl _
  · have hquiet := not_significant_of_trails h (.inl rfl)
    rw [List.append_nil] at hquiet
    rw [lines_last (h.newline_not_mem (by decide)) hne]
    exact .insert hquiet []

/-- Behind the words of the first line may stand anything that has no tokens. -/
theorem sameLines_trailer {l trailer back : List Char} (hs : Significant l) (hl : '\n' ∉ l)
    (ht : Trails isBlank trailer) (hback : back = [] ∨ ∃ rest, back = '\n' :: rest) :
    SameLines (lines (l ++ back)) (lines (l ++ trailer ++ back)) := by
  have hlong : '\n' ∉ l ++ trailer := by
    simp [hl, ht.newline_not_mem (by decide)]
  have hne : l ≠ [] := by
    rintro rfl
    obtain ⟨c, hc, -⟩ := hs
    cases hc
  rcases hback with rfl | ⟨rest, rfl⟩
  · have hsame : SameLine (l ++ ([] ++ [])) (l ++ (trailer ++ [])) :=
      sameLine_trailer hs hl nofun (.inl rfl) ht (.inl rfl)
    simp only [List.append_nil] at hsame ⊢
    rw [lines_last hl hne, lines_last hlong (by simp [hne])]
    exact .cons hsame (.refl [])
  · have hsame : SameLine (l ++ ([] ++ ['\n'])) (l ++ (trailer ++ ['\n'])) :=
      sameLine_trailer hs hl nofun (.inr rfl) ht (.inr rfl)
    rw [List.nil_append, ← List.append_assoc] at hsame
    rw [lines_line hl, lines_line hlong]
    exact .cons hsame (.refl _)

/-! ### Edits -/

/-- One edit at one place, or carriage returns at the ends of all lines. -/
inductive Edit : String → String → Prop
  /-- A carriage return in front of every line feed. -/
  | returns (s : String) : Edit s (.ofList (withReturns s.toList))
  /-- A line of spaces, carriage returns and perhaps a comment, in front of any line or behind the last one. -/
  | quietLine {front line back : String} (hfront : Ended front.toList) (h : Trails isMargin line.toList) :
    Edit (front ++ back) (front ++ line ++ "\n" ++ back)
  /-- The same at the end, where the line needs no line feed. -/
  | quietEnd {front line : String} (hfront : Ended front.toList) (h : Trails isMargin line.toList) :
    Edit front (front ++ line)
  /-- Blanks and perhaps a comment at the end of a line that has words. -/
  | trailer {front line trailer back : String} (hfront : Ended front.toList) (hline : '\n' ∉ line.toList)
    (words : Significant line.toList) (h : Trails isBlank trailer.toList)
    (hback : back = "" ∨ ∃ rest, back = "\n" ++ rest) :
    Edit (front ++ line ++ back) (front ++ line ++ trailer ++ back)
  /-- A line feed at the end of the text. -/
  | final (s : String) : Edit s (s ++ "\n")
  /-- The text without the line feed at its end. -/
  | noFinal (s : String) : Edit (s ++ "\n") s

/-- An edit leaves the lines the same. -/
theorem Edit.sameLines {s t : String} (h : Edit s t) : SameLines (lines s.toList) (lines t.toList) := by
  have hnewline : "\n".toList = ['\n'] := rfl
  cases h with
  | returns s =>
    rw [String.toList_ofList]
    exact (sameLines_withReturns s.toList).1
  | @quietLine front line back hfront h =>
    simp only [String.toList_append, List.append_assoc, hnewline, List.singleton_append]
    rw [lines_append_ended hfront, lines_append_ended hfront, lines_line (h.newline_not_mem (by decide))]
    exact .append_left _ (.insert (not_significant_of_trails h (.inr rfl)) _)
  | @quietEnd front line hfront h =>
    rw [String.toList_append, lines_append_ended hfront]
    simpa using SameLines.append_left (lines s.toList) (sameLines_quiet h)
  | @trailer front line trailer back hfront hline words h hback =>
    simp only [String.toList_append, List.append_assoc]
    rw [lines_append_ended hfront, lines_append_ended hfront, ← List.append_assoc line.toList]
    refine .append_left _ (sameLines_trailer words hline h ?_)
    rcases hback with rfl | ⟨rest, rfl⟩
    · exact .inl rfl
    · exact .inr ⟨rest.toList, String.toList_append⟩
  | final s =>
    rw [String.toList_append]
    exact (sameLines_final s.toList).1
  | noFinal s =>
    rw [String.toList_append]
    exact (sameLines_final t.toList).2

/-- Lines that are the same have the same kinds of tokens. -/
theorem kinds_of_sameLines {s t : String} (h : SameLines (lines s.toList) (lines t.toList)) {ts : List Token}
    (hs : tokens s = .ok ts) : ∃ us, tokens t = .ok us ∧ us.map Token.kind = ts.map Token.kind :=
  Scan.Gives.tokens (h 0 _ (gives_of_tokens hs))

/-- However many edits are made in a text that has tokens, their kinds stay the same.  Where a text has none, it has
none either with carriage returns in front of its line feeds. -/
theorem tokens_edited (s : String) :
    (∀ ts, tokens s = .ok ts → ∀ t, Relation.ReflTransGen Edit s t →
      ∃ us, tokens t = .ok us ∧ us.map Token.kind = ts.map Token.kind) ∧
    ∀ e, tokens s = .error e → ∃ e', tokens (.ofList (withReturns s.toList)) = .error e' := by
  constructor
  · intro ts hs t ht
    induction ht with
    | refl => exact ⟨ts, hs, rfl⟩
    | tail _ hedit ih =>
      obtain ⟨us, hus, hkinds⟩ := ih
      obtain ⟨vs, hvs, hsame⟩ := kinds_of_sameLines hedit.sameLines hus
      exact ⟨vs, hvs, hsame.trans hkinds⟩
  · intro e he
    cases ht : tokens (.ofList (withReturns s.toList)) with
    | error e' => exact ⟨e', rfl⟩
    | ok ts =>
      have hback : SameLines (lines (String.ofList (withReturns s.toList)).toList) (lines s.toList) := by
        rw [String.toList_ofList]
        exact (sameLines_withReturns s.toList).2
      obtain ⟨us, hus, -⟩ := kinds_of_sameLines hback ht
      rw [he] at hus
      cases hus

/-- A comment behind a word, a line of its own, carriage returns and a last line feed, one after the other.  A string
that is not ended is not ended by a carriage return either. -/
theorem tokens_edited_each :
    Relation.ReflTransGen Edit "a\n  b" "a # x\r\n \r# 'q\r\n  b\n" ∧
      (∃ us, tokens "a # x\r\n \r# 'q\r\n  b\n" = .ok us ∧
        us.map Token.kind = [.name "a", .newline, .indent, .name "b", .newline, .dedent, .eof]) ∧
      ∃ e, tokens (.ofList (withReturns "'a\n".toList)) = .error e := by
  have hcomment : Edit "a\n  b" "a # x\n  b" :=
    @Edit.trailer "" "a" " # x" "\n  b" (.inl rfl) (by decide) ⟨'a', rfl, by decide⟩
      ⟨[' '], "# x".toList, rfl, List.forall_mem_singleton.2 rfl, .inr ⟨" x".toList, rfl, by decide⟩⟩
      (.inr ⟨"  b", rfl⟩)
  have hline : Edit "a # x\n  b" "a # x\n \r# 'q\n  b" :=
    @Edit.quietLine "a # x\n" " \r# 'q" "  b" (.inr ⟨"a # x".toList, rfl⟩)
      ⟨[' ', '\r'], "# 'q".toList, rfl, List.forall_mem_cons.2 ⟨rfl, List.forall_mem_singleton.2 rfl⟩,
        .inr ⟨" 'q".toList, rfl, by decide⟩⟩
  have hreturns : Edit "a # x\n \r# 'q\n  b" "a # x\r\n \r# 'q\r\n  b" := .returns _
  have hfinal : Edit "a # x\r\n \r# 'q\r\n  b" "a # x\r\n \r# 'q\r\n  b\n" := .final _
  have hedits := (((Relation.ReflTransGen.single hcomment).tail hline).tail hreturns).tail hfinal
  have hread : tokens "a\n  b" = .ok [⟨.name "a", ⟨0, 1, 1, 1⟩⟩, ⟨.newline, ⟨1, 2, 1, 2⟩⟩, ⟨.indent, ⟨2, 4, 2, 1⟩⟩,
      ⟨.name "b", ⟨4, 5, 2, 3⟩⟩, ⟨.newline, ⟨5, 5, 2, 4⟩⟩, ⟨.dedent, ⟨5, 5, 2, 4⟩⟩, ⟨.eof, ⟨5, 5, 2, 4⟩⟩] := by
    decide +kernel
  obtain ⟨us, hus, hsame⟩ := (tokens_edited _).1 _ hread _ hedits
  have hfault : tokens "'a\n" = .error ⟨.unterminatedString, ⟨0, 2, 1, 1⟩⟩ := by decide +kernel
  exact ⟨hedits, ⟨us, hus, hsame⟩, (tokens_edited "'a\n").2 _ hfault⟩

end ClassScript.Source

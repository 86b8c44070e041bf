import ClassScript.Source.Tokens

/-!
# Written lines

Which texts stand for which tokens: a word for each token, blanks between words, two spaces a level
in front of a line.  A token has many words and a line many layouts; `render` chooses one of each.
Main statements: every layout of lines is read as their tokens (`tokens_of_layout`), and `render`
gives a layout (`layout_render`).
-/

namespace ClassScript.Source

/-! ### Words -/

/-- What may stand between two quotes for the characters of a string. -/
inductive Escaped (quote : Char) : List Char → List Char → Prop
  | nil : Escaped quote [] []
  | plain {c : Char} {s cs : List Char} (hq : c ≠ quote) (hb : c ≠ '\\') (hn : c ≠ '\n')
    (rest : Escaped quote s cs) : Escaped quote (c :: s) (c :: cs)
  | escape {c e : Char} {s cs : List Char} (he : escape? e = some c) (rest : Escaped quote s cs) :
    Escaped quote (c :: s) ('\\' :: e :: cs)

/-- A punctuation character that is a token of its own wherever it stands. -/
def isMark (c : Char) : Bool :=
  Text.isPunctuation c && c ≠ '#' && c ≠ '_' && c ≠ '"' && c ≠ '\''

/-- A text that stands for a token other than a layout mark. -/
inductive Word : TokenKind → List Char → Prop
  | number {ds : List Char} (digits : ∀ d ∈ ds, d.isDigit = true) (ne : ds ≠ [])
    (bound : decimal ds ≤ maxInt) : Word (.number (Int64.ofNat (decimal ds))) ds
  | word {c : Char} {cs : List Char} (first : Text.isWordStart c = true)
    (rest : ∀ d ∈ cs, Text.isWordPart d = true) : Word (.ofWord (String.ofList (c :: cs))) (c :: cs)
  | string {q : Char} {s : String} {cs : List Char} (quote : q = '"' ∨ q = '\'')
    (body : Escaped q s.toList cs) : Word (.string s) (q :: cs ++ [q])
  | pair {c : Char} {k : TokenKind} (h : withEquals? c = some k) : Word k [c, '=']
  | mark {c : Char} (h : isMark c = true) : Word (.char c) [c]

/-- Whether a character right behind a word for a token would be read as a part of the word. -/
def goesOn : TokenKind → Char → Bool
  | .number _, d => d.isDigit
  | .name _, d | .keyword _, d => Text.isWordPart d
  | .char c, d => (withEquals? c).isSome && d = '='
  | _, _ => false

/-- A text behind a word for a token leaves the word as it is. -/
def Stops (k : TokenKind) (cs : List Char) : Prop := ∀ d ∈ cs.head?, goesOn k d = false

theorem goesOn_eq_false {c : Char} (hword : Text.isWordPart c = false) (hdigit : c.isDigit = false)
    (heq : c ≠ '=') (k : TokenKind) : goesOn k c = false := by
  cases k with
  | number n => exact hdigit
  | name s => exact hword
  | keyword k => exact hword
  | char d => rw [goesOn, decide_eq_false heq, Bool.and_false]
  | _ => rfl

theorem goesOn_of_isBlank (k : TokenKind) {c : Char} (h : isBlank c = true) : goesOn k c = false := by
  have hc : c = ' ' ∨ c = '\t' ∨ c = '\r' := by
    simpa [isBlank, or_assoc] using h
  rcases hc with rfl | rfl | rfl
  all_goals exact goesOn_eq_false (by decide) (by decide) (by decide) k

theorem stops_of_isBlank (k : TokenKind) {c : Char} (h : isBlank c = true) (cs : List Char) :
    Stops k (c :: cs) := by
  intro d hd
  obtain rfl : c = d := Option.some.inj hd
  exact goesOn_of_isBlank k h

/-- The end of a line, with a line feed or without, leaves its last word as it is. -/
theorem Stops.append_end {k : TokenKind} {cs stop : List Char} (h : Stops k cs)
    (hstop : stop = [] ∨ stop = ['\n']) : Stops k (cs ++ stop) := by
  rcases hstop with rfl | rfl
  · rwa [List.append_nil]
  · cases cs with
    | nil =>
      intro d hd
      obtain rfl : '\n' = d := Option.some.inj hd
      exact goesOn_eq_false (by decide) (by decide) (by decide) k
    | cons c cs => exact h

/-! ### Characters -/

theorem withEquals?_eq_none {c : Char} (h : c ∉ ['=', '!', '<', '>']) : withEquals? c = none := by
  simp only [List.mem_cons, not_or] at h
  obtain ⟨h₁, h₂, h₃, h₄, -⟩ := h
  unfold withEquals?
  split
  · exact absurd rfl h₁
  · exact absurd rfl h₂
  · exact absurd rfl h₃
  · exact absurd rfl h₄
  · rfl

theorem lt_of_isDigit {c : Char} (h : c.isDigit = true) : c.toNat < 0x80 := by
  simp only [Char.isDigit, Bool.and_eq_true, decide_eq_true_eq, UInt32.le_iff_toNat_le] at h
  have h9 : '9'.val.toNat = 57 := rfl
  have hc : c.toNat = c.val.toNat := rfl
  omega

theorem isAlpha_eq_false_of_isDigit {c : Char} (h : c.isDigit = true) : c.isAlpha = false := by
  simp only [Char.isDigit, Bool.and_eq_true, decide_eq_true_eq, UInt32.le_iff_toNat_le, ge_iff_le] at h
  have h9 : '9'.val.toNat = 57 := rfl
  rw [Bool.eq_false_iff]
  intro ha
  have hA : 'A'.val.toNat = 65 := rfl
  have ha' : 'a'.val.toNat = 97 := rfl
  rcases Bool.or_eq_true_iff.1 (show (c.isUpper || c.isLower) = true from ha) with ha | ha
  · have hle : 'A'.val ≤ c.val ∧ c.val ≤ 'Z'.val := of_decide_eq_true ha
    simp only [UInt32.le_iff_toNat_le] at hle
    omega
  · have hle : 'a'.val ≤ c.val ∧ c.val ≤ 'z'.val := by simpa using show (decide _ && decide _) = true from ha
    simp only [UInt32.le_iff_toNat_le] at hle
    omega

/-- The first character of a word for a name tells it from all other tokens. -/
theorem isDigit_of_isWordStart {c : Char} (h : Text.isWordStart c = true) : c.isDigit = false := by
  rw [Bool.eq_false_iff]
  intro hd
  rw [Text.isWordStart, Text.isAlphabetic_of_lt (lt_of_isDigit hd), isAlpha_eq_false_of_isDigit hd,
    Bool.false_or, decide_eq_true_eq] at h
  rw [h] at hd
  exact absurd hd (by decide)

theorem isBlank_eq_false {c : Char} (h : c ∉ [' ', '\t', '\r']) : isBlank c = false := by
  simpa [isBlank, and_assoc] using h

/-! ### Reading a word -/

theorem takeWhile_append_stop {p : Char → Bool} {cs rest : List Char} (h : ∀ d ∈ cs, p d = true)
    (hr : ∀ d ∈ rest.head?, p d = false) : (cs ++ rest).takeWhile p = cs := by
  rw [List.takeWhile_append_of_pos h]
  cases rest with
  | nil => exact List.append_nil cs
  | cons d rest =>
    have hd := hr d rfl
    rw [List.takeWhile_cons_of_neg (by rw [hd]; exact Bool.false_ne_true), List.append_nil]

theorem lexeme_number {c : Char} {cs rest : List Char} (h : ∀ d ∈ c :: cs, d.isDigit = true)
    (hb : decimal (c :: cs) ≤ maxInt) (hr : ∀ d ∈ rest.head?, d.isDigit = false) :
    lexeme c (cs ++ rest) = .ok (.number (Int64.ofNat (decimal (c :: cs))), cs.length) := by
  have hc : c.isDigit = true := h c List.mem_cons_self
  have he : withEquals? c = none := by
    apply withEquals?_eq_none
    intro hm
    simp only [List.mem_cons, List.not_mem_nil, or_false] at hm
    rcases hm with rfl | rfl | rfl | rfl
    all_goals exact absurd hc (by decide)
  have hq : ¬(c = '"' ∨ c = '\'') := by
    rintro (rfl | rfl)
    all_goals exact absurd hc (by decide)
  have hmore : (cs ++ rest).takeWhile Char.isDigit = cs :=
    takeWhile_append_stop (fun d hd => h d (List.mem_cons_of_mem c hd)) hr
  unfold lexeme
  rw [he]
  dsimp only
  rw [if_neg hq, if_pos hc, number, hmore]
  exact if_pos hb

theorem lexeme_name {c : Char} {cs rest : List Char} (hc : Text.isWordStart c = true)
    (h : ∀ d ∈ cs, Text.isWordPart d = true) (hr : ∀ d ∈ rest.head?, Text.isWordPart d = false) :
    lexeme c (cs ++ rest) = .ok (.ofWord (String.ofList (c :: cs)), cs.length) := by
  have he : withEquals? c = none := by
    apply withEquals?_eq_none
    intro hm
    simp only [List.mem_cons, List.not_mem_nil, or_false] at hm
    rcases hm with rfl | rfl | rfl | rfl
    all_goals exact absurd hc (by decide)
  have hq : ¬(c = '"' ∨ c = '\'') := by
    rintro (rfl | rfl)
    all_goals exact absurd hc (by decide)
  have hd : ¬c.isDigit = true := by
    rw [isDigit_of_isWordStart hc]
    exact Bool.false_ne_true
  unfold lexeme
  rw [he]
  dsimp only
  rw [if_neg hq, if_neg hd, if_pos hc, word, takeWhile_append_stop h hr]

/-- A string is read up to the quote that closes it. -/
theorem quoted_of_escaped {q : Char} {s cs : List Char} (hq : q = '"' ∨ q = '\'')
    (h : Escaped q s cs) (rest : List Char) :
    quoted q (cs ++ q :: rest) = .ok (s, cs.length + 1) := by
  induction h with
  | nil =>
    rcases hq with rfl | rfl
    · simp [quoted]
    · simp [quoted]
  | plain hne hb hn _ ih =>
    rw [List.cons_append, quoted]
    · rw [if_neg hn, if_neg hne, ih]
      simp only [Read.push, List.length_cons]
      rw [Nat.add_comm 1]
    · rintro rfl
      exact absurd rfl hb
    · rintro d ds rfl
      exact absurd rfl hb
  | escape he _ ih =>
    rw [List.cons_append, List.cons_append, quoted, he]
    dsimp only
    rw [ih]
    simp only [Read.push, List.length_cons]
    rw [Nat.add_comm 2]

theorem lexeme_string {q : Char} {s : String} {cs : List Char} (hq : q = '"' ∨ q = '\'')
    (h : Escaped q s.toList cs) (rest : List Char) :
    lexeme q (cs ++ q :: rest) = .ok (.string s, cs.length + 1) := by
  have he : withEquals? q = none := by
    rcases hq with rfl | rfl
    · rfl
    · rfl
  unfold lexeme
  rw [he]
  dsimp only
  rw [if_pos hq, quoted_of_escaped hq h]
  show Except.ok (TokenKind.string (String.ofList s.toList), cs.length + 1) = _
  rw [String.ofList_toList]

theorem lexeme_pair {c : Char} {k : TokenKind} (h : withEquals? c = some k) (rest : List Char) :
    lexeme c ('=' :: rest) = .ok (k, 1) := by
  unfold lexeme
  rw [h]
  exact if_pos rfl

theorem lexeme_mark {c : Char} {rest : List Char} (h : isMark c = true) (hr : Stops (.char c) rest) :
    lexeme c rest = .ok (.char c, 0) := by
  simp only [isMark, Bool.and_eq_true, decide_eq_true_eq] at h
  obtain ⟨⟨⟨⟨hp, -⟩, hu⟩, hd⟩, hs⟩ := h
  unfold lexeme
  cases he : withEquals? c with
  | some k =>
    dsimp only
    have hne : rest.head? ≠ some '=' := by
      intro heq
      have := hr '=' heq
      simp [goesOn, he] at this
    exact if_neg hne
  | none =>
    dsimp only
    have ⟨hrange, halnum⟩ : (33 ≤ c.toNat ∧ c.toNat ≤ 126) ∧ c.isAlphanum = false := by
      simpa [Text.isPunctuation] using hp
    simp only [Char.isAlphanum, Bool.or_eq_false_iff] at halnum
    have hw : Text.isWordStart c = false := by
      rw [Text.isWordStart, Text.isAlphabetic_of_lt (by omega), halnum.1, Bool.false_or]
      exact decide_eq_false hu
    have hq : ¬(c = '"' ∨ c = '\'') := by
      rintro (rfl | rfl)
      · exact hd rfl
      · exact hs rfl
    rw [if_neg hq, halnum.2, hw, if_neg Bool.false_ne_true, if_neg Bool.false_ne_true, if_pos hp]

theorem goesOn_ofWord (w : String) (d : Char) : goesOn (.ofWord w) d = Text.isWordPart d := by
  unfold TokenKind.ofWord
  split
  · rfl
  · rfl

/-- A word begins like a token and is read as a whole, up to any text that it stops at. -/
theorem Word.lexeme {k : TokenKind} {t : List Char} (h : Word k t) :
    ∃ c cs, t = c :: cs ∧ c ∉ ['\n', ' ', '\t', '\r', '#'] ∧
      ∀ rest, Stops k rest → lexeme c (cs ++ rest) = .ok (k, cs.length) := by
  cases h with
  | number digits ne bound =>
    cases t with
    | nil => exact absurd rfl ne
    | cons c cs =>
      refine ⟨c, cs, rfl, ?_, fun rest hr => lexeme_number digits bound hr⟩
      intro hm
      have hc : c.isDigit = true := digits c List.mem_cons_self
      simp only [List.mem_cons, List.not_mem_nil, or_false] at hm
      rcases hm with rfl | rfl | rfl | rfl | rfl
      all_goals exact absurd hc (by decide)
  | @word c cs first rest =>
    refine ⟨c, cs, rfl, ?_, fun r hr => lexeme_name first rest ?_⟩
    · intro hm
      simp only [List.mem_cons, List.not_mem_nil, or_false] at hm
      rcases hm with rfl | rfl | rfl | rfl | rfl
      all_goals exact absurd first (by decide)
    · intro d hd
      rw [← goesOn_ofWord]
      exact hr d hd
  | @string q s cs quote body =>
    refine ⟨q, cs ++ [q], rfl, ?_, fun rest _ => ?_⟩
    · rcases quote with rfl | rfl
      · decide
      · decide
    · rw [List.append_assoc, List.length_append]
      exact lexeme_string quote body rest
  | @pair c k h =>
    refine ⟨c, ['='], rfl, ?_, fun rest _ => lexeme_pair h rest⟩
    intro hm
    simp only [List.mem_cons, List.not_mem_nil, or_false] at hm
    rcases hm with rfl | rfl | rfl | rfl | rfl
    all_goals cases h
  | @mark c h =>
    refine ⟨c, [], rfl, ?_, fun rest hr => lexeme_mark h hr⟩
    intro hm
    simp only [List.mem_cons, List.not_mem_nil, or_false] at hm
    rcases hm with rfl | rfl | rfl | rfl | rfl
    all_goals exact absurd h (by decide)

theorem Escaped.newline_not_mem {q : Char} {s cs : List Char} (h : Escaped q s cs) :
    '\n' ∉ cs := by
  induction h with
  | nil => exact List.not_mem_nil
  | plain _ _ hn _ ih =>
    intro hm
    rcases List.mem_cons.1 hm with rfl | hm
    · exact hn rfl
    · exact ih hm
  | escape he _ ih =>
    intro hm
    rcases List.mem_cons.1 hm with h | hm
    · exact absurd h (by decide)
    · rcases List.mem_cons.1 hm with rfl | hm
      · cases he
      · exact ih hm

theorem Word.newline_not_mem {k : TokenKind} {t : List Char} (h : Word k t) : '\n' ∉ t := by
  intro hm
  cases h with
  | number digits => exact absurd (digits _ hm) (by decide)
  | word first rest =>
    rcases List.mem_cons.1 hm with rfl | hm
    · exact absurd first (by decide)
    · exact absurd (rest _ hm) (by decide)
  | @string q s cs quote body =>
    have hq : '\n' ≠ q := by
      rcases quote with rfl | rfl
      · decide
      · decide
    rcases List.mem_append.1 hm with hm | hm
    · rcases List.mem_cons.1 hm with h | hm
      · exact hq h
      · exact body.newline_not_mem hm
    · exact hq (List.mem_singleton.1 hm)
  | pair h =>
    rcases List.mem_cons.1 hm with rfl | hm
    · cases h
    · exact absurd (List.mem_singleton.1 hm) (by decide)
  | mark h =>
    obtain rfl := List.mem_singleton.1 hm
    exact absurd h (by decide)

/-! ### Lines -/

/-- The words of a line with blanks behind them. -/
inductive Spaced : List TokenKind → List Char → Prop
  | nil : Spaced [] []
  | cons {k : TokenKind} {ks : List TokenKind} {t gap cs : List Char} (word : Word k t)
    (blank : ∀ c ∈ gap, isBlank c = true) (stops : Stops k (gap ++ cs)) (rest : Spaced ks cs) :
    Spaced (k :: ks) (t ++ (gap ++ cs))

/-- A line: its level and its tokens. -/
structure Line where
  level : Nat
  words : List TokenKind
  deriving DecidableEq, Repr

namespace Line

/-- The tokens of lines that begin at a level and go back to another in the end. -/
def kinds (old new : Nat) : List Line → List TokenKind
  | [] => levelMarks old new
  | l :: ls => levelMarks old l.level ++ (l.words ++ .newline :: kinds l.level new ls)

end Line

/-- The texts of lines. -/
inductive Layout : List Line → List Char → Prop
  | nil : Layout [] []
  | cons {l : Line} {ls : List Line} {body cs : List Char} (ne : l.words ≠ [])
    (line : Spaced l.words body) (rest : Layout ls cs) :
    Layout (l :: ls) (.replicate (2 * l.level) ' ' ++ body ++ '\n' :: cs)

theorem eof_not_mem_levelMarks (old new : Nat) : .eof ∉ levelMarks old new := by
  intro hm
  unfold levelMarks at hm
  split at hm
  · cases List.eq_of_mem_replicate hm
  · cases List.eq_of_mem_replicate hm

/-- A scan comes to its end and gives these tokens. -/
def Scan.Gives (s : Scan) (ks : List TokenKind) : Prop :=
  s.fault = none ∧ s.pieces.flatMap Piece.kinds = ks

namespace Scan.Gives

variable {s t : Scan} {ks js : List TokenKind}

theorem cons (p : Piece) (h : s.Gives ks) : (s.cons p).Gives (p.kinds ++ ks) :=
  ⟨h.1, by rw [Scan.cons_pieces, List.flatMap_cons, h.2]⟩

theorem append (hs : s.Gives ks) (ht : t.Gives js) : (s.append t).Gives (ks ++ js) := by
  obtain ⟨hf, hk⟩ := hs
  obtain ⟨hf', hk'⟩ := ht
  unfold Scan.append
  rw [hf]
  refine ⟨hf', ?_⟩
  show (s.pieces ++ t.pieces).flatMap Piece.kinds = _
  rw [List.flatMap_append, hk, hk']

end Scan.Gives

theorem scanBody_gap {gap cs : List Char} {ks : List TokenKind} (h : ∀ c ∈ gap, isBlank c = true)
    (hcs : (scanBody cs).Gives ks) : (scanBody (gap ++ cs)).Gives ks := by
  induction gap with
  | nil => exact hcs
  | cons c gap ih =>
    have hc : isBlank c = true := h c List.mem_cons_self
    have hn : c ≠ '\n' := by
      rintro rfl
      cases hc
    rw [List.cons_append, scanBody, if_neg hn, if_pos hc]
    exact (ih fun d hd => h d (List.mem_cons_of_mem c hd)).cons _

theorem scanBody_word {k : TokenKind} {t cs : List Char} {ks : List TokenKind} (h : Word k t)
    (hr : Stops k cs) (hcs : (scanBody cs).Gives ks) : (scanBody (t ++ cs)).Gives (k :: ks) := by
  obtain ⟨c, t, rfl, hc, hlex⟩ := h.lexeme
  simp only [List.mem_cons, List.not_mem_nil, or_false, not_or] at hc
  obtain ⟨hn, h₁, h₂, h₃, hh⟩ := hc
  have hb : isBlank c = false := isBlank_eq_false (by simp [h₁, h₂, h₃])
  rw [List.cons_append, scanBody, if_neg hn, hb, if_neg Bool.false_ne_true, if_neg hh, hlex cs hr]
  dsimp only
  rw [List.drop_left]
  exact hcs.cons _

/-- The body of a line gives the tokens of its words and the end of the line. -/
theorem scanBody_spaced {ks : List TokenKind} {cs stop : List Char} (h : Spaced ks cs)
    (hstop : stop = [] ∨ stop = ['\n']) : (scanBody (cs ++ stop)).Gives (ks ++ [.newline]) := by
  induction h with
  | nil =>
    rcases hstop with rfl | rfl
    · rw [List.nil_append, scanBody]
      exact ⟨rfl, rfl⟩
    · rw [List.nil_append, scanBody, if_pos rfl]
      exact ⟨rfl, rfl⟩
  | cons word blank stops _ ih =>
    rw [List.append_assoc]
    apply scanBody_word word (stops.append_end hstop)
    rw [List.append_assoc]
    exact scanBody_gap blank ih

theorem Spaced.newline_not_mem {ks : List TokenKind} {cs : List Char} (h : Spaced ks cs) :
    '\n' ∉ cs := by
  induction h with
  | nil => exact List.not_mem_nil
  | cons word blank _ _ ih =>
    intro hm
    rcases List.mem_append.1 hm with hm | hm
    · exact word.newline_not_mem hm
    · rcases List.mem_append.1 hm with hm | hm
      · exact absurd (blank _ hm) (by decide)
      · exact ih hm

/-- Blanks leave any word in front of them as it is. -/
theorem stops_of_blank {k : TokenKind} {gap cs : List Char} (blank : ∀ c ∈ gap, isBlank c = true)
    (h : Stops k cs) : Stops k (gap ++ cs) := by
  cases gap with
  | nil => exact h
  | cons c gap => exact stops_of_isBlank k (blank c List.mem_cons_self) (gap ++ cs)

/-- Words behind words, where the first of them does not go on with any word. -/
theorem Spaced.append {ks js : List TokenKind} {cs ds : List Char} (h : Spaced ks cs) (h' : Spaced js ds)
    (hstop : ∀ k, Stops k ds) : Spaced (ks ++ js) (cs ++ ds) := by
  induction h with
  | nil => exact h'
  | @cons k ks t gap cs word blank stops _ ih =>
    rw [List.append_assoc, List.append_assoc]
    refine .cons word blank ?_ ih
    cases gap with
    | nil =>
      cases cs with
      | nil => exact hstop k
      | cons c cs => exact stops
    | cons c gap => exact stops_of_isBlank k (blank c List.mem_cons_self) _

theorem lines_eq_singleton {cs stop : List Char} (h : '\n' ∉ cs) (hstop : stop = [] ∨ stop = ['\n'])
    (hne : cs ++ stop ≠ []) : lines (cs ++ stop) = [cs ++ stop] := by
  induction cs with
  | nil =>
    rcases hstop with rfl | rfl
    · exact absurd rfl hne
    · rfl
  | cons c cs ih =>
    have hc : c ≠ '\n' := fun hc => h (hc ▸ List.mem_cons_self)
    have hcs : '\n' ∉ cs := fun hm => h (List.mem_cons_of_mem c hm)
    rw [List.cons_append, lines_cons_of_ne hc]
    by_cases hrest : cs ++ stop = []
    · rw [hrest]
      rfl
    · rw [ih hcs hrest]
      rfl

/-- A line of words gives the change of level in front of them. -/
theorem scanLine_spaced {ks : List TokenKind} {cs stop : List Char} (h : Spaced ks cs) (hne : ks ≠ [])
    (hstop : stop = [] ∨ stop = ['\n']) (old new : Nat) :
    (scanLine old (.replicate (2 * new) ' ' ++ cs ++ stop)).2 = new ∧
      (scanLine old (.replicate (2 * new) ' ' ++ cs ++ stop)).1.Gives
        (levelMarks old new ++ (ks ++ [.newline])) := by
  have hbody := scanBody_spaced h hstop
  obtain ⟨d, ds, hcs, hd⟩ : ∃ d ds, cs = d :: ds ∧ d ∉ ['\n', ' ', '\t', '\r', '#'] := by
    cases h with
    | nil => exact absurd rfl hne
    | cons word _ _ _ =>
      obtain ⟨c, t, rfl, hc, -⟩ := word.lexeme
      exact ⟨c, _, rfl, hc⟩
  simp only [List.mem_cons, List.not_mem_nil, or_false, not_or] at hd
  obtain ⟨hn, hs, ht, hr, hh⟩ := hd
  have hm : isMargin d = false := by simp [isMargin, hs, hr]
  have hall : ∀ c ∈ List.replicate (2 * new) ' ', isMargin c = true := by
    intro c hc
    rw [List.eq_of_mem_replicate hc]
    rfl
  have htake : (List.replicate (2 * new) ' ' ++ (d :: ds ++ stop)).takeWhile isMargin =
      List.replicate (2 * new) ' ' := by
    apply takeWhile_append_stop hall
    rintro c hc
    obtain rfl : d = c := Option.some.inj hc
    exact hm
  have hdrop : (List.replicate (2 * new) ' ' ++ (d :: ds ++ stop)).dropWhile isMargin =
      d :: ds ++ stop := by
    rw [List.dropWhile_append_of_pos hall]
    exact List.dropWhile_cons_of_neg (by rw [hm]; exact Bool.false_ne_true)
  have hcount : (List.replicate (2 * new) ' ').count ' ' = 2 * new := List.count_replicate_self
  subst hcs
  unfold scanLine
  rw [List.append_assoc, htake, hdrop]
  simp only [List.cons_append, hcount, if_neg ht, not_or.2 ⟨hn, hh⟩, if_false]
  rw [if_pos (by omega), Nat.mul_div_cancel_left new (by omega)]
  exact ⟨rfl, hbody.cons _⟩

theorem scanLines_cons (level : Nat) (line : List Char) (rest : List (List Char)) :
    scanLines level (line :: rest) =
      (scanLine level line).1.append (scanLines (scanLine level line).2 rest) := rfl

/-- Lines give their tokens and those that lead back to the first level. -/
theorem scanLines_layout {ls : List Line} {cs : List Char} (h : Layout ls cs) (level : Nat) :
    (scanLines level (lines cs)).Gives (Line.kinds level 0 ls ++ [.eof]) := by
  induction h generalizing level with
  | nil =>
    refine ⟨rfl, ?_⟩
    show List.replicate level TokenKind.dedent ++ [.eof] ++ [] = _
    rw [List.append_nil, Line.kinds, levelMarks, if_neg (Nat.not_lt_zero level), Nat.sub_zero]
  | @cons l ls body cs ne line _ ih =>
    have hm : '\n' ∉ List.replicate (2 * l.level) ' ' ++ body := by
      intro hm
      rcases List.mem_append.1 hm with hm | hm
      · exact absurd (List.eq_of_mem_replicate hm) (by decide)
      · exact line.newline_not_mem hm
    obtain ⟨hl, hg⟩ := scanLine_spaced line ne (.inr rfl) level l.level
    rw [lines_append_newline, lines_eq_singleton hm (.inr rfl) (by simp)]
    rw [List.singleton_append, scanLines_cons, hl]
    have := hg.append (ih l.level)
    simp only [Line.kinds, List.append_assoc, List.cons_append, List.nil_append] at this ⊢
    exact this

theorem Scan.Gives.tokens {text : String} {ks : List TokenKind} (h : (scan text.toList).Gives ks) :
    ∃ ts, Source.tokens text = .ok ts ∧ ts.map Token.kind = ks := by
  refine ⟨locate {} (scan text.toList).pieces, ?_, (map_kind_locate _ _).trans h.2⟩
  unfold Source.tokens
  dsimp only
  rw [h.1]

/-- Every layout of lines is a text of their tokens. -/
theorem tokens_of_layout {ls : List Line} {text : String} (h : Layout ls text.toList) :
    ∃ ts, tokens text = .ok ts ∧ ts.map Token.kind = Line.kinds 0 0 ls ++ [.eof] :=
  (scanLines_layout h 0).tokens

/-- A single line of words is a text of them, with a line feed at its end or without. -/
theorem tokens_of_spaced {ks : List TokenKind} {cs stop : List Char} (h : Spaced ks cs) (hne : ks ≠ [])
    (hstop : stop = [] ∨ stop = ['\n']) :
    ∃ ts, tokens (String.ofList (cs ++ stop)) = .ok ts ∧ ts.map Token.kind = ks ++ [.newline, .eof] := by
  have hcs : cs ++ stop ≠ [] := by
    cases h with
    | nil => exact absurd rfl hne
    | cons word _ _ _ =>
      obtain ⟨c, t, rfl, -, -⟩ := word.lexeme
      exact List.cons_ne_nil _ _
  obtain ⟨hl, hg⟩ := scanLine_spaced h hne hstop 0 0
  have hend : (scanLines 0 []).Gives [.eof] := ⟨rfl, rfl⟩
  have hscan := hg.append (hl.symm ▸ hend)
  refine Scan.Gives.tokens ?_
  rw [String.toList_ofList, scan, lines_eq_singleton h.newline_not_mem hstop hcs, scanLines_cons]
  simpa [levelMarks] using hscan

end ClassScript.Source

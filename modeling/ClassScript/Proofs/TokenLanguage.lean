import ClassScript.Proofs.Rendering

/-!
# The language of tokens

Which sequences are the tokens of whole lines, and how such a sequence is written down: two spaces a
level, one space between words, and for each string either kind of quotes.  Main statement: what is
written for a sequence is read as this sequence (`tokens_written`).
-/

namespace ClassScript.Source

/-! ### Strings in quotes -/

/-- The quotes that a string may stand between. -/
inductive Quote where
  | double | single
  deriving DecidableEq, Repr

/-- The character of a quote. -/
def Quote.char : Quote → Char
  | double => '"'
  | single => '\''

/-- How a character is written between quotes. -/
def Quote.escape (q : Quote) (c : Char) : List Char :=
  if c = q.char then ['\\', c] else if c = '\\' then ['\\', '\\'] else if c = '\n' then ['\\', 'n']
  else [c]

/-- The word that is written for a token, with such quotes if it is a string. -/
def Quote.word (q : Quote) : TokenKind → List Char
  | .string s => q.char :: s.toList.flatMap q.escape ++ [q.char]
  | k => wordOf k

theorem Quote.char_eq (q : Quote) : q.char = '"' ∨ q.char = '\'' := by
  cases q with
  | double => exact .inl rfl
  | single => exact .inr rfl

theorem Quote.escaped (q : Quote) (s : List Char) : Escaped q.char s (s.flatMap q.escape) := by
  induction s with
  | nil => exact .nil
  | cons c s ih =>
    rw [List.flatMap_cons, Quote.escape]
    split
    · rename_i hq
      refine .escape ?_ ih
      rcases q.char_eq with h | h
      · rw [hq, h]
        rfl
      · rw [hq, h]
        rfl
    split
    · rename_i hb
      rw [hb]
      exact .escape rfl ih
    split
    · rename_i hn
      rw [hn]
      exact .escape rfl ih
    · rename_i hq hb hn
      exact .plain hq hb hn ih

/-- Both kinds of quotes give a word. -/
theorem Quote.word_word (q : Quote) {k : TokenKind} (h : hasWord k = true) : Word k (q.word k) := by
  cases k with
  | string s => exact .string q.char_eq (q.escaped s.toList)
  | _ => exact word_wordOf h

/-! ### Sequences -/

/-- The tokens of whole lines from a level on.  A line begins with any number of indents, or with dedents
down to the first level at most; behind the last line all levels are left. -/
inductive LaidOut : Nat → List TokenKind → Prop
  | finish (level : Nat) : LaidOut level (.replicate level .dedent ++ [.eof])
  | deeper {level n : Nat} {w ks : List TokenKind} (ne : w ≠ []) (each : ∀ k ∈ w, hasWord k = true)
    (rest : LaidOut (level + n) ks) : LaidOut level (.replicate n .indent ++ (w ++ .newline :: ks))
  | back {level n : Nat} {w ks : List TokenKind} (hn : n ≤ level) (ne : w ≠ [])
    (each : ∀ k ∈ w, hasWord k = true) (rest : LaidOut (level - n) ks) :
    LaidOut level (.replicate n .dedent ++ (w ++ .newline :: ks))

/-- The text of tokens at a level, either in front of a line or behind a word of one.  A string has the
quotes that are meant for as many tokens as stand behind it. -/
def written (quotes : Nat → Quote) (level : Nat) (front : Bool) : List TokenKind → List Char
  | [] => []
  | k :: ks =>
    match k with
    | .newline => '\n' :: written quotes level true ks
    | .indent => written quotes (level + 1) front ks
    | .dedent => written quotes (level - 1) front ks
    | .eof => written quotes level front ks
    | k =>
      (if front then .replicate (2 * level) ' ' else [' ']) ++
        ((quotes ks.length).word k ++ written quotes level false ks)

section

variable (quotes : Nat → Quote)

theorem written_indents (level n : Nat) (ks : List TokenKind) :
    written quotes level true (.replicate n .indent ++ ks) = written quotes (level + n) true ks := by
  induction n generalizing level with
  | zero => rfl
  | succ n ih =>
    rw [List.replicate_succ, List.cons_append, written, ih]
    congr 1
    omega

theorem written_dedents (level n : Nat) (ks : List TokenKind) :
    written quotes level true (.replicate n .dedent ++ ks) = written quotes (level - n) true ks := by
  induction n generalizing level with
  | zero => rfl
  | succ n ih =>
    rw [List.replicate_succ, List.cons_append, written, ih]
    congr 1
    omega

theorem written_word {k : TokenKind} (h : hasWord k = true) (level : Nat) (front : Bool)
    (ks : List TokenKind) :
    written quotes level front (k :: ks) = (if front then .replicate (2 * level) ' ' else [' ']) ++
      ((quotes ks.length).word k ++ written quotes level false ks) := by
  cases k with
  | newline | indent | dedent | eof => cases h
  | _ => rfl

/-- The rest of a line, behind a word of it. -/
theorem spaced_written {words : List TokenKind} (each : ∀ k ∈ words, hasWord k = true) (level : Nat)
    (ks : List TokenKind) {k : TokenKind} {t : List Char} (hk : Word k t) :
    ∃ body, Spaced (k :: words) body ∧
      t ++ written quotes level false (words ++ .newline :: ks) =
        body ++ '\n' :: written quotes level true ks := by
  -- the word `k` goes first, since what may stand behind a word depends on the word
  induction words generalizing k t with
  | nil =>
    refine ⟨t ++ ([] ++ []), .cons hk (List.forall_mem_nil _) ?_ .nil, ?_⟩
    · intro d hd
      cases hd
    · rw [List.append_nil, List.append_nil]
      rfl
  | cons j words ih =>
    obtain ⟨hj, hwords⟩ := List.forall_mem_cons.1 each
    let rest := words ++ .newline :: ks
    obtain ⟨body, hbody, htext⟩ := ih hwords ((quotes rest.length).word_word hj)
    refine ⟨t ++ ([' '] ++ body), .cons hk (List.forall_mem_singleton.2 rfl) ?_ hbody, ?_⟩
    · exact stops_of_isBlank k rfl body
    · rw [List.cons_append, written_word quotes hj, htext]
      simp

/-- A line and the lines behind it are written in a layout if the latter are. -/
theorem layout_written_line {words ks : List TokenKind} (ne : words ≠ [])
    (each : ∀ k ∈ words, hasWord k = true) (level : Nat) {ls : List Line}
    (rest : Layout ls (written quotes level true ks)) :
    Layout (⟨level, words⟩ :: ls) (written quotes level true (words ++ .newline :: ks)) := by
  obtain ⟨k, words, rfl⟩ := List.exists_cons_of_ne_nil ne
  obtain ⟨hk, hwords⟩ := List.forall_mem_cons.1 each
  obtain ⟨body, hbody, htext⟩ := spaced_written quotes hwords level ks
    ((quotes (words ++ .newline :: ks).length).word_word hk)
  rw [List.cons_append, written_word quotes hk, htext, if_pos rfl, ← List.append_assoc]
  exact .cons ne hbody rest

/-- A sequence that is laid out is that of lines, and is written in a layout of them. -/
theorem LaidOut.layout {level : Nat} {ks : List TokenKind} (h : LaidOut level ks) :
    ∃ ls, Layout ls (written quotes level true ks) ∧ ks = Line.kinds level 0 ls ++ [.eof] := by
  induction h with
  | finish level =>
    refine ⟨[], ?_, ?_⟩
    · rw [written_dedents]
      exact .nil
    · rw [Line.kinds, levelMarks, if_neg (Nat.not_lt_zero level), Nat.sub_zero]
  | @deeper level n words ks ne each _ ih =>
    obtain ⟨ls, hls, hks⟩ := ih
    refine ⟨⟨level + n, words⟩ :: ls, ?_, ?_⟩
    · rw [written_indents]
      exact layout_written_line quotes ne each (level + n) hls
    · have hmarks : levelMarks level (level + n) = .replicate n .indent := by
        unfold levelMarks
        split
        · rw [Nat.add_sub_cancel_left]
        · obtain rfl : n = 0 := by omega
          rw [Nat.add_zero, Nat.sub_self]
          rfl
      rw [Line.kinds, hmarks, hks]
      simp
  | @back level n words ks hn ne each _ ih =>
    obtain ⟨ls, hls, hks⟩ := ih
    refine ⟨⟨level - n, words⟩ :: ls, ?_, ?_⟩
    · rw [written_dedents]
      exact layout_written_line quotes ne each (level - n) hls
    · have hmarks : levelMarks level (level - n) = .replicate n .dedent := by
        unfold levelMarks
        rw [if_neg (by omega), show level - (level - n) = n by omega]
      rw [Line.kinds, hmarks, hks]
      simp

/-- What is written for a sequence that is laid out is read as the sequence. -/
theorem tokens_written {ks : List TokenKind} (h : LaidOut 0 ks) :
    ∃ ts, tokens (String.ofList (written quotes 0 true ks)) = .ok ts ∧ ts.map Token.kind = ks := by
  obtain ⟨ls, hls, rfl⟩ := h.layout quotes
  refine tokens_of_layout ?_
  rwa [String.toList_ofList]

end

/-- A condition with an escape of each kind, a comparison at the end of a line, and two levels left at once. -/
theorem tokens_written_nested :
    let quotes : Nat → Quote := fun n => if n < 5 then .single else .double
    let ks : List TokenKind :=
      [.keyword .kIf, .name "a1", .ge, .number 10, .char ':', .newline,
        .indent, .indent, .keyword .kPrint, .string "it's \"\\\n", .char '=', .newline,
        .dedent, .name "ö", .char '<', .string "it's", .newline, .dedent, .eof]
    LaidOut 0 ks ∧
      String.ofList (written quotes 0 true ks) =
        "if a1 >= 10 :\n    print \"it's \\\"\\\\\\n\" =\n  ö < 'it\\'s'\n" ∧
      ∃ ts, tokens (String.ofList (written quotes 0 true ks)) = .ok ts ∧ ts.map Token.kind = ks := by
  intro quotes ks
  have h : LaidOut 0 ks :=
    .deeper (n := 0) (w := [.keyword .kIf, .name "a1", .ge, .number 10, .char ':']) (by simp) (by decide) <|
    .deeper (n := 2) (w := [.keyword .kPrint, .string "it's \"\\\n", .char '=']) (by simp) (by decide) <|
    .back (n := 1) (w := [.name "ö", .char '<', .string "it's"]) (by decide) (by simp) (by decide) <|
    .finish 1
  exact ⟨h, by decide, tokens_written quotes h⟩

end ClassScript.Source

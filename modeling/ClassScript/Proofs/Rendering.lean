import ClassScript.Proofs.Layout

/-!
# Rendering

One layout of lines among all: decimal digits, double quotes, and one space between words.  Main
statement: lines of words are rendered to a text of them (`layout_render`).
-/

namespace ClassScript.Source

/-! ### Words -/

/-- How a character is written between double quotes. -/
def escapedChar (c : Char) : List Char :=
  if c = '"' then ['\\', '"'] else if c = '\\' then ['\\', '\\'] else if c = '\n' then ['\\', 'n']
  else [c]

/-- The word that is written for a token. -/
def wordOf : TokenKind → List Char
  | .number n => Nat.toDigits 10 n.toNatClampNeg
  | .string s => '"' :: s.toList.flatMap escapedChar ++ ['"']
  | .name s => s.toList
  | .char c => [c]
  | .keyword k => k.text.toList
  | .eq => ['=', '=']
  | .ne => ['!', '=']
  | .le => ['<', '=']
  | .ge => ['>', '=']
  | .newline | .indent | .dedent | .eof => []

/-- A text that is read as a keyword or as a name. -/
def isWord (s : String) : Bool :=
  match s.toList with
  | [] => false
  | c :: cs => Text.isWordStart c && cs.all Text.isWordPart

/-- A text that is read as a name. -/
def isName (s : String) : Bool := isWord s && (Keyword.ofText? s).isNone

/-- Whether there is a word for a token. -/
def hasWord : TokenKind → Bool
  | .number n => decide (0 ≤ n)
  | .name s => isName s
  | .char c => isMark c
  | .string _ | .keyword _ | .eq | .ne | .le | .ge => true
  | .newline | .indent | .dedent | .eof => false

theorem decimal_toDigits (n : Nat) : decimal (Nat.toDigits 10 n) = n := by
  have hdigit : ∀ d < 10, d.digitChar.toNat - 48 = d := by decide
  by_cases h : n < 10
  · rw [Nat.toDigits_of_lt_base h]
    show 10 * 0 + (n.digitChar.toNat - 48) = n
    rw [hdigit n h]
    omega
  · have ih := decimal_toDigits (n / 10)
    rw [Nat.toDigits_of_base_le (by omega) (by omega)]
    unfold decimal at ih ⊢
    rw [List.foldl_append, ih]
    show 10 * (n / 10) + ((n % 10).digitChar.toNat - 48) = n
    rw [hdigit (n % 10) (by omega)]
    omega
termination_by n
decreasing_by omega

theorem escaped_escapedChar (s : List Char) : Escaped '"' s (s.flatMap escapedChar) := by
  induction s with
  | nil => exact .nil
  | cons c s ih =>
    rw [List.flatMap_cons, escapedChar]
    split
    · rename_i h
      subst h
      exact .escape rfl ih
    split
    · rename_i h
      subst h
      exact .escape rfl ih
    split
    · rename_i h
      subst h
      exact .escape rfl ih
    · rename_i hq hb hn
      exact .plain hq hb hn ih

theorem word_ofWord {s : String} (h : isWord s = true) : Word (.ofWord s) s.toList := by
  unfold isWord at h
  cases hs : s.toList with
  | nil =>
    rw [hs] at h
    cases h
  | cons c cs =>
    rw [hs] at h
    simp only [Bool.and_eq_true, List.all_eq_true] at h
    have hw := Word.word h.1 h.2
    rwa [← hs, String.ofList_toList, hs] at hw

theorem word_name {s : String} (h : isName s = true) : Word (.name s) s.toList := by
  simp only [isName, Bool.and_eq_true, Option.isNone_iff_eq_none] at h
  have hw := word_ofWord h.1
  rwa [TokenKind.ofWord, h.2] at hw

theorem word_keyword (k : Keyword) : Word (.keyword k) k.text.toList := by
  rw [← TokenKind.ofWord_text]
  apply word_ofWord
  cases k
  all_goals decide

theorem word_wordOf {k : TokenKind} (h : hasWord k = true) : Word k (wordOf k) := by
  cases k with
  | number n =>
    have hn : 0 ≤ n := of_decide_eq_true h
    have hlt := n.toNatClampNeg_lt
    have hd := decimal_toDigits n.toNatClampNeg
    have hdigits : ∀ d ∈ Nat.toDigits 10 n.toNatClampNeg, d.isDigit = true := fun d hd =>
      Nat.isDigit_of_mem_toDigits (by omega) (by omega) hd
    have hbound : decimal (Nat.toDigits 10 n.toNatClampNeg) ≤ maxInt := by
      rw [hd, maxInt]
      omega
    have hw := Word.number hdigits Nat.toDigits_ne_nil hbound
    rwa [hd, Int64.ofNat_toNatClampNeg n hn] at hw
  | string s => exact .string (.inl rfl) (escaped_escapedChar s.toList)
  | name s => exact word_name h
  | char c => exact .mark h
  | keyword k => exact word_keyword k
  | eq | ne | le | ge => exact .pair rfl
  | newline | indent | dedent | eof => cases h

/-! ### Lines -/

/-- Words with one space between them. -/
def spaced (ks : List TokenKind) : List Char := List.intercalate [' '] (ks.map wordOf)

/-- The text of a line. -/
def Line.text (l : Line) : List Char := .replicate (2 * l.level) ' ' ++ spaced l.words ++ ['\n']

/-- The text of lines. -/
def render (ls : List Line) : List Char := ls.flatMap Line.text

theorem spaced_spaced {ks : List TokenKind} (h : ∀ k ∈ ks, hasWord k = true) :
    Spaced ks (spaced ks) := by
  induction ks with
  | nil => exact .nil
  | cons k ks ih =>
    have hk := word_wordOf (h k List.mem_cons_self)
    have hks := ih fun j hj => h j (List.mem_cons_of_mem k hj)
    cases ks with
    | nil =>
      have stops : Stops k [] := by
        intro d hd
        cases hd
      have := Spaced.cons hk (List.forall_mem_nil _) stops .nil
      rw [List.append_nil, List.append_nil] at this
      rwa [spaced, List.map_singleton, List.intercalate_singleton]
    | cons j ks =>
      have blank : ∀ c ∈ [' '], isBlank c = true := List.forall_mem_singleton.2 rfl
      have := Spaced.cons hk blank (stops_of_isBlank k rfl _) hks
      rwa [spaced, List.map_cons, List.map_cons, List.intercalate_cons_cons, List.append_assoc]

/-- Lines of words are rendered to a text of them. -/
theorem layout_render {ls : List Line} (h : ∀ l ∈ ls, l.words ≠ [] ∧ ∀ k ∈ l.words, hasWord k = true) :
    Layout ls (render ls) := by
  induction ls with
  | nil => exact .nil
  | cons l ls ih =>
    obtain ⟨hne, hk⟩ := h l List.mem_cons_self
    have := Layout.cons hne (spaced_spaced hk) (ih fun k hk => h k (List.mem_cons_of_mem l hk))
    rw [render, List.flatMap_cons, Line.text, List.append_assoc]
    exact this

end ClassScript.Source

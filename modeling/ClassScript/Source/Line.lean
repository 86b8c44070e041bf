/-!
# Lines

A text is cut into lines behind each line feed.  Main statements: the lines make up the text, a line
feed stands only at the end of one, and a text may be cut behind any line feed first.
-/

namespace ClassScript.Source

/-- The lines of a text, each with the line feed that ends it. -/
def lines : List Char → List (List Char)
  | [] => []
  | c :: cs =>
    if c = '\n' then [c] :: lines cs
    else match lines cs with
      | [] => [[c]]
      | l :: ls => (c :: l) :: ls

@[simp] theorem lines_nil : lines [] = [] := rfl

@[simp] theorem lines_newline (cs : List Char) : lines ('\n' :: cs) = ['\n'] :: lines cs := by
  simp [lines]

theorem lines_cons_of_ne {c : Char} (h : c ≠ '\n') (cs : List Char) :
    lines (c :: cs) = (c :: (lines cs).headD []) :: (lines cs).tail := by
  simp only [lines, h, if_false]
  cases lines cs <;> rfl

/-- Nothing is lost. -/
@[simp] theorem flatten_lines (cs : List Char) : (lines cs).flatten = cs := by
  induction cs with
  | nil => rfl
  | cons c cs ih =>
    by_cases h : c = '\n'
    · subst h; simp [ih]
    · rw [lines_cons_of_ne h]
      cases hl : lines cs <;> simp_all

theorem ne_nil_of_mem_lines {l cs : List Char} (h : l ∈ lines cs) : l ≠ [] := by
  induction cs generalizing l with
  | nil => simp at h
  | cons c cs ih =>
    by_cases hc : c = '\n'
    · subst hc
      obtain rfl | h := List.mem_cons.1 (by simpa using h)
      · simp
      · exact ih h
    · rw [lines_cons_of_ne hc] at h
      obtain rfl | h := List.mem_cons.1 h
      · simp
      · exact ih (List.mem_of_mem_tail h)

/-- A line feed stands only at the end of a line. -/
theorem newline_not_mem_dropLast {l cs : List Char} (h : l ∈ lines cs) : '\n' ∉ l.dropLast := by
  induction cs generalizing l with
  | nil => simp at h
  | cons c cs ih =>
    by_cases hc : c = '\n'
    · subst hc
      obtain rfl | h := List.mem_cons.1 (by simpa using h)
      · simp
      · exact ih h
    · rw [lines_cons_of_ne hc] at h
      obtain rfl | h := List.mem_cons.1 h
      · cases hl : lines cs with
        | nil => simp
        | cons k ks =>
          have hk := ih (hl ▸ List.mem_cons_self)
          cases k with
          | nil => simp
          | cons d ds =>
            rw [List.headD_cons, List.dropLast_cons_of_ne_nil (by simp), List.mem_cons]
            rintro (rfl | hm)
            · exact hc rfl
            · exact hk hm
      · exact ih (List.mem_of_mem_tail h)

/-- A text may be cut behind a line feed. -/
theorem lines_append_newline (s t : List Char) :
    lines (s ++ '\n' :: t) = lines (s ++ ['\n']) ++ lines t := by
  induction s with
  | nil => simp
  | cons c s ih =>
    by_cases hc : c = '\n'
    · subst hc; simp [ih]
    · have hne : lines (s ++ ['\n']) ≠ [] := by
        intro h
        simpa [h] using flatten_lines (s ++ ['\n'])
      simp only [List.cons_append, lines_cons_of_ne hc, ih]
      cases h : lines (s ++ ['\n']) with
      | nil => exact absurd h hne
      | cons l ls => simp

end ClassScript.Source

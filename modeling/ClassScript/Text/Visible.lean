import ClassScript.Text.GraphemeBase

/-!
# Visible characters

The characters that can be told by their looks alone.  They are the base characters without the wide
blanks and the fillers, which leave no ink, and with the sound marks that take a place of their own.
Main statement: among the ASCII characters the visible ones are those from the space to the tilde.
-/

namespace ClassScript.Text

/-- The ranges of the blanks between words, the ASCII space left out. -/
def wideBlankRanges : List (Nat × Nat) :=
  [(0xA0, 0xA0), (0x1680, 0x1680), (0x2000, 0x200A), (0x202F, 0x202F), (0x205F, 0x205F),
    (0x3000, 0x3000)]

/-- The ranges of the fillers: letters that stand where a letter of a syllable is missing. They are
the base characters that Unicode lets a display ignore. -/
def fillerRanges : List (Nat × Nat) := [(0x115F, 0x1160), (0x3164, 0x3164), (0xFFA0, 0xFFA0)]

/-- The range of the halfwidth sound marks. They extend the letter in front of them, and stand beside
it. -/
def soundMarkRanges : List (Nat × Nat) := [(0xFF9E, 0xFF9F)]

/-- A character that can be told by its looks alone. -/
def isVisible (c : Char) : Bool :=
  (isGraphemeBase c && !inRanges wideBlankRanges c.toNat && !inRanges fillerRanges c.toNat) ||
    inRanges soundMarkRanges c.toNat

/-- Among the ASCII characters the visible ones are those from the space to the tilde. -/
theorem isVisible_iff_of_lt {c : Char} (h : c.toNat < 0x80) :
    isVisible c = true ↔ 0x20 ≤ c.toNat ∧ c.toNat ≤ 0x7E := by
  rw [← isGraphemeBase_iff_of_lt h]
  have hr : ∀ rs : List (Nat × Nat), (∀ r ∈ rs, 0x80 ≤ r.1) → inRanges rs c.toNat = false := by
    intro rs hrs
    refine List.any_eq_false.2 fun r hm => ?_
    have := hrs r hm
    simp only [Bool.and_eq_true, decide_eq_true_eq]
    omega
  rw [isVisible, hr wideBlankRanges (by decide), hr fillerRanges (by decide),
    hr soundMarkRanges (by decide)]
  simp only [Bool.not_false, Bool.and_true, Bool.or_false]

end ClassScript.Text

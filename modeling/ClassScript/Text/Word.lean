import ClassScript.Text.Numeric

/-!
# Words

A word begins with an alphabetic character or an underscore; numeric characters may follow.
Main statement: every character that may begin a word may also stand inside one.
-/

namespace ClassScript.Text

/-- A character that may begin a word. -/
def isWordStart (c : Char) : Bool := isAlphabetic c || c = '_'

/-- A character that may stand inside a word. -/
def isWordPart (c : Char) : Bool := isAlphabetic c || isNumeric c || c = '_'

theorem isWordPart_of_isWordStart {c : Char} (h : isWordStart c = true) : isWordPart c = true := by
  simp only [isWordStart, isWordPart, Bool.or_eq_true] at h ⊢
  obtain h | h := h <;> simp [h]

/-- ASCII punctuation: the printable ASCII characters other than letters, digits and the space. -/
def isPunctuation (c : Char) : Bool :=
  (33 ≤ c.toNat && c.toNat ≤ 126) && !c.isAlphanum

end ClassScript.Text

import ClassScript.Span

/-!
# Tokens

The words of the language: keywords, literals, names, operators and the layout marks that stand
for indentation and line ends.  `TokenKind.text` is how a token is shown in messages.
-/

namespace ClassScript

/-- The reserved words. -/
inductive Keyword where
  | kClass | kReturn | kIf | kElse | kDef | kPrint | kAnd | kOr | kNot | kNone | kTrue | kFalse
  deriving DecidableEq, Repr

namespace Keyword

/-- The keywords in the order of their declaration. -/
def all : List Keyword :=
  [kClass, kReturn, kIf, kElse, kDef, kPrint, kAnd, kOr, kNot, kNone, kTrue, kFalse]

/-- The spelling of a keyword. -/
def text : Keyword → String
  | kClass => "class"
  | kReturn => "return"
  | kIf => "if"
  | kElse => "else"
  | kDef => "def"
  | kPrint => "print"
  | kAnd => "and"
  | kOr => "or"
  | kNot => "not"
  | kNone => "None"
  | kTrue => "True"
  | kFalse => "False"

/-- The keyword that a word spells, if it spells one. -/
def ofText? (word : String) : Option Keyword := all.find? fun k => k.text == word

theorem ofText?_text (k : Keyword) : ofText? k.text = some k := by
  cases k <;> decide

theorem text_of_ofText? {word : String} {k : Keyword} (h : ofText? word = some k) :
    k.text = word := by
  simpa using List.find?_some h

end Keyword

/-- What a token is. -/
inductive TokenKind where
  | number (n : Int64)
  | string (text : String)
  | name (text : String)
  /-- A single punctuation character. -/
  | char (c : Char)
  | keyword (k : Keyword)
  /-- The operator `==`. -/
  | eq
  /-- The operator `!=`. -/
  | ne
  /-- The operator `<=`. -/
  | le
  /-- The operator `>=`. -/
  | ge
  | newline | indent | dedent | eof
  deriving DecidableEq, Repr

namespace TokenKind

/-- A word is a keyword if it spells one, and a name otherwise. -/
def ofWord (word : String) : TokenKind :=
  match Keyword.ofText? word with
  | some k => keyword k
  | none => name word

/-- How a token is shown in messages. -/
def text : TokenKind → String
  | number n => toString n.toInt
  | string s => "\"" ++ s ++ "\""
  | name s => s
  | char c => c.toString
  | keyword k => k.text
  | eq => "=="
  | ne => "!="
  | le => "<="
  | ge => ">="
  | newline => "newline"
  | indent => "indent"
  | dedent => "dedent"
  | eof => "EOF"

@[simp] theorem ofWord_text (k : Keyword) : ofWord k.text = keyword k := by
  simp [ofWord, Keyword.ofText?_text]

end TokenKind

/-- A token and the place where it stands. -/
structure Token where
  kind : TokenKind
  span : Span := {}
  deriving DecidableEq, Repr

end ClassScript

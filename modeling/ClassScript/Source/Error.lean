import ClassScript.Span

/-!
# Lexical errors

What can be wrong with a text before it is a list of tokens.
-/

namespace ClassScript

/-- What is wrong with a piece of source text. -/
inductive LexFault where
  | unexpectedChar (c : Char)
  | unterminatedString
  | invalidEscape (c : Char)
  | invalidNumber (digits : String)
  /-- The leading blanks of a line make up no whole number of levels, or hold a tab. -/
  | invalidIndent
  deriving DecidableEq, Repr

/-- A lexical fault and the text that shows it. -/
structure LexError where
  fault : LexFault
  span : Span
  deriving DecidableEq, Repr

/-- What is said about a lexical fault. -/
def LexFault.text : LexFault → String
  | .unexpectedChar c => "Unexpected character '" ++ c.toString ++ "'"
  | .unterminatedString => "Unterminated string"
  | .invalidEscape c => "Invalid escape sequence '\\" ++ c.toString ++ "'"
  | .invalidNumber digits => "Invalid number '" ++ digits ++ "'"
  | .invalidIndent => "Indentation must be a multiple of two spaces"

/-- The fault and its place. -/
def LexError.message (e : LexError) : String := e.fault.text ++ " at " ++ e.span.text

end ClassScript

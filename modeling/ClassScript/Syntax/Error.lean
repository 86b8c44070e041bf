import ClassScript.Source.Error

/-!
# Syntax errors

What can be wrong with a list of tokens.
-/

namespace ClassScript

/-- What is wrong with the tokens of a program. -/
inductive SyntaxFault where
  | unexpectedToken (expected found : String)
  | unknownClass (name : String)
  | duplicateClass (name : String)
  | invalidAssignmentTarget
  | general (text : String)
  deriving DecidableEq, Repr

/-- A syntactic fault and the text that shows it. -/
structure SyntaxError where
  fault : SyntaxFault
  span : Span
  deriving DecidableEq, Repr

/-- What is said about a syntactic fault at a place. -/
def SyntaxError.message (e : SyntaxError) : String :=
  let place := " at " ++ e.span.text
  match e.fault with
  | .unexpectedToken expected found =>
    "Unexpected token '" ++ found ++ "', expected " ++ expected ++ place
  | .unknownClass name => "Unknown class '" ++ name ++ "'" ++ place
  | .duplicateClass name => "Class '" ++ name ++ "' is already defined" ++ place
  | .invalidAssignmentTarget => "Invalid assignment target" ++ place
  | .general text => text ++ place

/-- A lexical error told as a syntactic one: its whole message becomes the text. -/
def LexError.asSyntax (e : LexError) : SyntaxError := ⟨.general e.message, e.span⟩

end ClassScript

import ClassScript.Run.Error
import ClassScript.Syntax.Error

/-!
# Failures

Everything that a program may fail with, from its text to its last output.
-/

namespace ClassScript

/-- The failure of a program, by the phase that it arose in. -/
inductive Failure where
  | lexical (e : LexError)
  | syntactic (e : SyntaxError)
  | runtime (e : RuntimeError)
  /-- The output could not be completed after the run. -/
  | io (text : String)
  deriving DecidableEq, Repr

namespace Failure

/-- What is said about a failure: its phase and its message. -/
def message : Failure → String
  | lexical e => "Lexer error: " ++ e.message
  | syntactic e => "Parser error: " ++ e.message
  | runtime e => "Runtime error: " ++ e.message
  | io text => "IO error: " ++ text

/-- The place of a failure in the text. -/
def span? : Failure → Option Span
  | lexical e => some e.span
  | syntactic e => some e.span
  | runtime e => e.span?
  | io _ => none

end Failure

end ClassScript

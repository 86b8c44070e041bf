import ClassScript.Run.Call

/-!
# Text of values

An object whose class has a method for its text is shown by what that method gives, which is shown in
its turn; all else has a text of its own.  Printing writes the texts piece by piece.
-/

namespace ClassScript.Exec

/-- The name of the method that gives the text of an object. -/
def strName : String := "__str__"

section

variable (call : Call) (exec : Node → Exec Value) (text : Span → Value → Exec String)

/-- The text of a value, where `text` gives that of what a method gave. -/
def textOver (span : Span) (v : Value) : Exec String := do
  match v with
  | .obj a =>
    let o ← object a span
    if (← get).heap.hasMethod o strName 0 then
      holding (.obj (.owned o)) do
        text span (← call o strName [] span)
    else
      return (← get).heap.display (← get).live v
  | v => return (← get).heap.display (← get).live v

/-- Prints the texts of nodes behind `last`, the value of the one before, with blanks between them
and a line feed at the end. -/
def printRest (span : Span) (last : Value) : List Node → Exec Value
  | [] => do
    write "\n"
    return last
  | a :: rest => do
    write " "
    let v ← holding last (exec a)
    write (← holding v (text span v))
    printRest span v rest

/-- Prints the texts of nodes. The value of the last one is the value of it all. -/
def print (span : Span) : List Node → Exec Value
  | [] => do
    write "\n"
    return .none
  | a :: rest => do
    let v ← exec a
    write (← holding v (text span v))
    printRest exec text span v rest

end

end ClassScript.Exec

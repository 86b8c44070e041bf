import ClassScript.Syntax.Error
import ClassScript.Syntax.Node
import ClassScript.Token

/-!
# Reading tokens

A `Parser` takes tokens from the front of a list, knows the classes declared so far, and stops at
the first thing that is wrong.  The end mark is not among the tokens left: behind the last of them
stands one at a fixed place, and no parser moves past it.
-/

namespace ClassScript

/-- A class name that has been declared; its body may still be open. -/
structure Declared where
  name : String
  finished : Bool
  deriving DecidableEq, Repr

/-- How far the reading of a program has come. -/
structure Reading where
  /-- The program that is read. -/
  unit : Nat
  /-- The place of the token read last. -/
  last : Span
  /-- The tokens left. -/
  rest : List Token
  /-- The place of the end mark. -/
  final : Span
  /-- The classes declared so far, the latest first. -/
  declared : List Declared
  deriving Repr

namespace Reading

/-- The token that stands `n` places ahead. -/
def ahead (s : Reading) (n : Nat) : Token := s.rest[n]?.getD ⟨.eof, s.final⟩

/-- The next token. -/
def next (s : Reading) : Token := s.ahead 0

/-- The reading behind the next token; at the end it stays where it is. -/
def advance (s : Reading) : Reading :=
  match s.rest with
  | [] => s
  | t :: rest => { s with last := t.span, rest := rest }

/-- Whether a class of this name has been declared. -/
def declares (s : Reading) (name : String) : Bool := s.declared.any fun d => d.name == name

/-- Whether a class of this name has been declared and its body is closed. -/
def finishes (s : Reading) (name : String) : Bool :=
  s.declared.any fun d => d.name == name && d.finished

/-- A class is declared by its header. -/
def openClass (s : Reading) (name : String) : Reading :=
  { s with declared := ⟨name, false⟩ :: s.declared }

/-- The body of a class is closed. -/
def closeClass (s : Reading) (name : String) : Reading :=
  { s with declared := s.declared.map fun d => if d.name == name then ⟨name, true⟩ else d }

end Reading

/-- A reader of tokens. -/
abbrev Parser := StateT Reading (Except SyntaxError)

namespace Parser

/-- The next token, which stays. -/
def peek : Parser Token := do return (← get).next

/-- The token behind the next one. -/
def peekSecond : Parser Token := do return (← get).ahead 1

/-- Leaves the next token behind. -/
def skip : Parser Unit := modify Reading.advance

/-- The place of the token read last. -/
def lastSpan : Parser Span := do return (← get).last

/-- The span from a place up to the token read last. -/
def spanFrom (start : Span) : Parser Span := do return start.merge (← get).last

/-- The error that another token than `t` was expected. -/
def unexpected {α : Type} (expected : String) (t : Token) : Parser α :=
  throw ⟨.unexpectedToken expected t.kind.text, t.span⟩

/-- Whether the next token is of this kind. -/
def nextIs (k : TokenKind) : Parser Bool := do return (← peek).kind = k

/-- Takes the next token if it is of this kind. -/
def accept (k : TokenKind) : Parser Bool := do
  if ← nextIs k then
    skip
    return true
  else
    return false

/-- Takes the next token, which must be of this kind. -/
def expect (k : TokenKind) : Parser Unit := do
  if ← accept k then
    return
  else
    unexpected k.text (← peek)

/-- Takes the next token, which must be a name. -/
def expectName : Parser String := do
  let t ← peek
  match t.kind with
  | .name x =>
    skip
    return x
  | _ => unexpected "identifier" t

/-- Items with commas between them, at least one and at most `n + 1`. -/
def commaList {α : Type} (item : Parser α) : Nat → Parser (List α)
  | 0 => do return [← item]
  | n + 1 => do
    let a ← item
    if ← accept (.char ',') then
      return a :: (← commaList item n)
    else
      return [a]

/-- Items in parentheses with commas between them. -/
def parenthesized {α : Type} (item : Parser α) (bound : Nat) : Parser (List α) := do
  expect (.char '(')
  if ← accept (.char ')') then
    return []
  else
    let items ← commaList item bound
    expect (.char ')')
    return items

/-- Items up to one of the tokens that `stop` picks, at most `n`. -/
def manyUntil {α : Type} (stop : TokenKind → Bool) (item : Parser α) : Nat → Parser (List α)
  | 0 => return []
  | n + 1 => do
    if stop (← peek).kind then
      return []
    else
      let a ← item
      return a :: (← manyUntil stop item n)

end Parser

end ClassScript

import ClassScript.Syntax.Expression

/-!
# Statements

Class definitions and conditionals have indented blocks; all other statements end with their line.
`statement n` reads one in a text of at most `n` tokens.
-/

namespace ClassScript

namespace Parser

/-- Whether an assignment follows: names with dots between them and an equals sign. -/
def isAssignment : List Token → Bool
  | ⟨.name _, _⟩ :: rest => more rest
  | _ => false
where
  /-- Whether names behind dots and then an equals sign follow. -/
  more : List Token → Bool
    | ⟨.char '.', _⟩ :: ⟨.name _, _⟩ :: rest => more rest
    | ⟨.char '=', _⟩ :: _ => true
    | _ => false

section

variable (bound : Nat)

/-- An expression. -/
def test : Parser Node := expression bound .test

/-- `target = value`: the last name of a dotted target is a field. -/
def assignment : Parser Node := do
  let start := (← peek).span
  let path ← dottedName bound
  expect (.char '=')
  let value ← test bound
  let span := start.merge value.span
  match path with
  | [] => throw ⟨.invalidAssignmentTarget, start⟩
  | [name] => return .assign span name value
  | _ => return .setField span path.dropLast (path.getLastD "") value

/-- Arguments in parentheses that end the line; if the parentheses are but the beginning of an
expression, nothing is read. -/
def lineArguments : Parser (Option (List Node)) := fun s =>
  match parenthesized (test bound) bound s with
  | .ok (args, s') => if s'.next.kind = .newline then .ok (some args, s') else .ok (none, s)
  | .error _ => .ok (none, s)

/-- `print`, with or without parentheses around all arguments. -/
def printed (start : Span) : Parser Node := do
  match ← lineArguments bound with
  | some args => return .print (← spanFrom start) args
  | none =>
    if ← nextIs .newline then
      return .print (← spanFrom start) []
    else
      let args ← commaList (test bound) bound
      return .print (← spanFrom start) args

/-- `return`, which gives nothing if no value follows. -/
def returned (start : Span) : Parser Node := do
  let value ← if ← nextIs .newline then pure (.literal start .none) else test bound
  return .ret (start.merge value.span) value

/-- A statement that ends with its line. -/
def simple : Parser Node := do
  let start := (← peek).span
  if ← accept (.keyword .kReturn) then
    returned bound start
  else if ← accept (.keyword .kPrint) then
    printed bound start
  else if isAssignment (← get).rest then
    assignment bound
  else
    test bound

variable (stmt : Parser Node)

/-- Whether a block ends here. -/
def endsBlock (k : TokenKind) : Bool := k = .dedent || k = .eof

/-- The indented block behind a colon. -/
def suite : Parser Node := do
  expect .newline
  let start := (← peek).span
  expect .indent
  let body ← manyUntil endsBlock stmt bound
  expect .dedent
  return .block (← spanFrom start) body

/-- A conditional. -/
def conditional : Parser Node := do
  let start := (← peek).span
  expect (.keyword .kIf)
  let cond ← test bound
  expect (.char ':')
  let yes ← suite bound stmt
  if ← accept (.keyword .kElse) then
    expect (.char ':')
    let no ← suite bound stmt
    return .ifElse (← spanFrom start) cond yes (some no)
  else
    return .ifElse (← spanFrom start) cond yes none

/-- The parameters of a method; the receiver, written first, is none of them. -/
def withoutSelf : List String → List String
  | [] => []
  | x :: xs => if x = selfName then xs else x :: xs

/-- A method of a class. -/
def method : Parser Method := do
  let start := (← peek).span
  expect (.keyword .kDef)
  let name ← expectName
  let params ← parenthesized expectName bound
  expect (.char ':')
  let body ← suite bound stmt
  return ⟨name, withoutSelf params, .methodBody (← spanFrom start) body⟩

/-- The class that a class derives from, if it names one; its body must be closed. -/
def parentClass : Parser (Option ClassId) := do
  if ← accept (.char '(') then
    let name ← expectName
    if (← get).finishes name then
      expect (.char ')')
      return some ⟨(← get).unit, name⟩
    else
      throw ⟨.unknownClass name, ← lastSpan⟩
  else
    return none

/-- The rest of a class definition behind its name. The class is declared by its header, so its
methods can make instances of it; it is finished by its last line. -/
def classBody (start : Span) (name : String) : Parser Node := do
  let parent ← parentClass
  expect (.char ':')
  expect .newline
  expect .indent
  modify (Reading.openClass · name)
  let first ← method bound stmt
  let others ← manyUntil endsBlock (method bound stmt) bound
  expect .dedent
  modify (Reading.closeClass · name)
  return .classDef (← spanFrom start) ⟨⟨(← get).unit, name⟩, parent, first :: others⟩

/-- A class definition, of a name that no class has yet. -/
def classDefinition : Parser Node := do
  let start := (← peek).span
  expect (.keyword .kClass)
  let name ← expectName
  if (← get).declares name then
    throw ⟨.duplicateClass name, ← lastSpan⟩
  else
    classBody bound stmt start name

/-- A statement, made of those that are nested in it. -/
def statementOver : Parser Node := do
  match (← peek).kind with
  | .keyword .kClass => classDefinition bound stmt
  | .keyword .kIf => conditional bound stmt
  | .keyword .kDef =>
    throw ⟨.general "methods can only be defined inside a class", (← peek).span⟩
  | _ =>
    let node ← simple bound
    expect .newline
    return node

end

/-- The statements where at most `n` tokens are left. -/
def statement : Nat → Parser Node
  | 0 => do unexpected "expression" (← peek)
  | n + 1 => statementOver (n + 1) (statement n)

/-- The statements up to the end mark. -/
def program (bound : Nat) : Parser Node := do
  let start := (← peek).span
  let body ← manyUntil (· = .eof) (statement bound) bound
  return .block (start.merge (← peek).span) body

end Parser

end ClassScript

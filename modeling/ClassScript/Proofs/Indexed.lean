import ClassScript.Syntax.Program

/-!
# Reading by index

The reader of programs over a list of tokens that stays as it is, with the index of the next token.  All that
may go wrong with an index is kept: a token is looked up by its index, which may lie outside the list, loops end
when their tokens say so and not before, and a reading that fails leaves the index where it was then.  A run
without an outcome is one that does not end.
-/

namespace ClassScript

/-- Why a run stops. -/
inductive Halt where
  /-- The tokens are at fault. -/
  | fault (e : SyntaxError)
  /-- There is no token at an index. -/
  | outside
  deriving DecidableEq, Repr

/-- The tokens of a program, and the number of the program. -/
structure TokenList where
  unit : Nat
  tokens : List Token
  deriving DecidableEq, Repr

/-- Where a reader stands in a list of tokens. -/
structure Position where
  /-- The index of the next token. -/
  current : Nat := 0
  /-- The greatest index that has been current or has been looked at. -/
  furthest : Nat := 0
  /-- The classes declared so far, the latest first. -/
  declared : List Declared := []
  deriving DecidableEq, Repr

/-- A reader by index.  The position that it comes to is known even if it fails. -/
abbrev Indexed := ExceptT Halt (StateT Position Option)

namespace Indexed

/-- Catches a fault of the tokens, but not an index outside of them. -/
def attempt {α : Type} (p : Indexed α) : Indexed (Option α) :=
  tryCatch (some <$> p) fun
    | .fault _ => return none
    | .outside => throw .outside

/-- Goes back to an index. -/
def rewind (i : Nat) : Indexed Unit := modify fun c => { c with current := i }

/-- Whether a class of this name has been declared. -/
def declares (name : String) : Indexed Bool := do return (← get).declared.any fun d => d.name == name

/-- Whether a class of this name has been declared and its body is closed. -/
def finishes (name : String) : Indexed Bool := do
  return (← get).declared.any fun d => d.name == name && d.finished

/-- A class is declared by its header. -/
def openClass (name : String) : Indexed Unit :=
  modify fun c => { c with declared := ⟨name, false⟩ :: c.declared }

/-- The body of a class is closed. -/
def closeClass (name : String) : Indexed Unit :=
  modify fun c =>
    { c with declared := c.declared.map fun d => if d.name == name then ⟨name, true⟩ else d }

/-- The operators that are read from the left and may be repeated, from the loosest to the tightest. -/
inductive Tier where
  | disjunction | conjunction | sum | product
  deriving DecidableEq, Repr

/-- The node that an operator of a tier makes. -/
def Tier.join? : Tier → TokenKind → Option (Node → Node → Node)
  | disjunction => Parser.or?
  | conjunction => Parser.and?
  | sum => Parser.sum?
  | product => Parser.product?

/-- The literal that a token stands for by itself. -/
def literal? : TokenKind → Option Literal
  | .number n => some (.int n)
  | .string s => some (.str s)
  | .keyword .kTrue => some (.bool true)
  | .keyword .kFalse => some (.bool false)
  | .keyword .kNone => some .none
  | _ => none

/-- The error that another token than the next one was expected. -/
def unexpected {α : Type} (expected : String) (t : Token) : Indexed α :=
  throw (.fault ⟨.unexpectedToken expected t.kind.text, t.span⟩)

end Indexed

namespace TokenList

open Indexed

/-! ### Tokens -/

/-- The token at an index. -/
def look (l : TokenList) (i : Nat) : Indexed Token := do
  match l.tokens[i]? with
  | some t =>
    modify fun c => { c with furthest := max c.furthest i }
    return t
  | none => throw .outside

/-- The next token. -/
def peek (l : TokenList) : Indexed Token := do l.look (← get).current

/-- The token read last. -/
def previous (l : TokenList) : Indexed Token := do l.look ((← get).current - 1)

/-- The token that stands `n` places ahead, or the last one of the list. -/
def peekAhead (l : TokenList) (n : Nat) : Indexed Token := do
  l.look (min ((← get).current + n) (l.tokens.length - 1))

/-- Whether an end mark is next. -/
def atEnd (l : TokenList) : Indexed Bool := do return (← l.peek).kind = .eof

/-- Takes the next token; at an end mark it stays where it is. -/
def advance (l : TokenList) : Indexed Token := do
  if ← l.atEnd then
    l.peek
  else
    modify fun c => { c with current := c.current + 1, furthest := max c.furthest (c.current + 1) }
    l.previous

/-- Whether the next token is of this kind. -/
def check (l : TokenList) (k : TokenKind) : Indexed Bool := do
  if ← l.atEnd then
    return false
  else
    return (← l.peek).kind = k

/-- Takes the next token if it is of this kind. -/
def accept (l : TokenList) (k : TokenKind) : Indexed Bool := do
  if ← l.check k then
    let _ ← l.advance
    return true
  else
    return false

/-- Takes the next token, which must be of this kind. -/
def expect (l : TokenList) (k : TokenKind) : Indexed Unit := do
  if ← l.check k then
    let _ ← l.advance
  else
    unexpected k.text (← l.peek)

/-- Takes the next token, which must be a name. -/
def expectName (l : TokenList) : Indexed String := do
  let t ← l.peek
  match t.kind with
  | .name x =>
    let _ ← l.advance
    return x
  | _ => unexpected "identifier" t

/-- The place of the token read last. -/
def lastSpan (l : TokenList) : Indexed Span := do return (← l.previous).span

/-- The span from a place up to the token read last. -/
def spanFrom (l : TokenList) (start : Span) : Indexed Span := do return start.merge (← l.lastSpan)

/-! ### Names -/

/-- The names behind the first of a dotted name. -/
def moreNames (l : TokenList) : Indexed (List String) := do
  if ← l.check (.char '.') then
    match (← l.peekAhead 1).kind with
    | .name _ =>
      let _ ← l.advance
      let x ← l.expectName
      return x :: (← l |>.moreNames)
    | _ => return []
  else
    return []
partial_fixpoint

/-- A name, or names with dots between them. -/
def dottedName (l : TokenList) : Indexed (List String) := do
  let x ← l.expectName
  return x :: (← l.moreNames)

/-- Names with commas between them. -/
def nameList (l : TokenList) : Indexed (List String) := do
  let x ← l.expectName
  if ← l.accept (.char ',') then
    return x :: (← l |>.nameList)
  else
    return [x]
partial_fixpoint

/-- Whether names behind dots and then an equals sign follow the token `n` places ahead. -/
def assignmentBehind (l : TokenList) (n : Nat) : Indexed Bool := do
  if (← l.peekAhead (n + 1)).kind = .char '.' then
    match (← l.peekAhead (n + 2)).kind with
    | .name _ => l |>.assignmentBehind (n + 2)
    | _ => return (← l.peekAhead (n + 1)).kind = .char '='
  else
    return (← l.peekAhead (n + 1)).kind = .char '='
partial_fixpoint

/-- Whether an assignment follows: names with dots between them and an equals sign. -/
def isAssignment (l : TokenList) : Indexed Bool := do
  match (← l.peekAhead 0).kind with
  | .name _ => l.assignmentBehind 0
  | _ => return false

/-! ### Expressions -/

mutual

/-- The operands of a tier. -/
def operand (l : TokenList) (tier : Tier) : Indexed Node :=
  match tier with
  | .disjunction => l |>.leftAssoc .conjunction
  | .conjunction => l |>.negation
  | .sum => l |>.leftAssoc .product
  | .product => l |>.signed
partial_fixpoint

/-- Operands with operators of a tier between them. -/
def leftAssoc (l : TokenList) (tier : Tier) : Indexed Node := do
  let left ← l |>.operand tier
  l |>.operands tier left
partial_fixpoint

/-- Operands behind operators of a tier, taken up from the left. -/
def operands (l : TokenList) (tier : Tier) (left : Node) : Indexed Node := do
  match tier.join? (← l.peek).kind with
  | none => return left
  | some join =>
    let _ ← l.advance
    let right ← l |>.operand tier
    l |>.operands tier (join left right)
partial_fixpoint

/-- A comparison, or the negation of a negation. -/
def negation (l : TokenList) : Indexed Node := do
  let start := (← l.peek).span
  if ← l.accept (.keyword .kNot) then
    let arg ← l |>.negation
    return .not (start.merge arg.span) arg
  else
    l |>.comparison
partial_fixpoint

/-- At most one comparison of two sums. -/
def comparison (l : TokenList) : Indexed Node := do
  let left ← l |>.leftAssoc .sum
  match Parser.comparator? (← l.peek).kind with
  | none => return left
  | some op =>
    let _ ← l.advance
    let right ← l |>.leftAssoc .sum
    return Parser.joined (.compare · op) left right
partial_fixpoint

/-- A negative sign takes the operand from zero. -/
def signed (l : TokenList) : Indexed Node := do
  let start := (← l.peek).span
  if ← l.accept (.char '-') then
    let arg ← l |>.signed
    return Parser.joined (.arith · .sub) (.literal start (.int 0)) arg
  else
    let object ← l |>.primary
    l |>.methodCalls object
partial_fixpoint

/-- Method calls on an object, one on the result of the other. -/
def methodCalls (l : TokenList) (object : Node) : Indexed Node := do
  if ← l.accept (.char '.') then
    let method ← l.expectName
    let args ← l |>.arguments
    l |>.methodCalls (.call (← l.spanFrom object.span) object method args)
  else
    return object
partial_fixpoint

/-- A literal, an expression in parentheses, a name, or a name with arguments. -/
def primary (l : TokenList) : Indexed Node := do
  match (← l.peek).kind with
  | .name x =>
    if (← l.peekAhead 1).kind = .char '(' then
      let t ← l.advance
      l |>.callByName x t.span
    else
      l |>.dottedValue
  | _ =>
    let t ← l.advance
    match literal? t.kind with
    | some v => return .literal t.span v
    | none =>
      if t.kind = .char '(' then
        let e ← l |>.leftAssoc .disjunction
        l.expect (.char ')')
        return e
      else
        unexpected "expression" t
partial_fixpoint

/-- A name with arguments: an instance of a declared class, or else the conversion `str`. -/
def callByName (l : TokenList) (name : String) (start : Span) : Indexed Node := do
  if ← declares name then
    let args ← l |>.arguments
    return .new (← l.spanFrom start) ⟨l.unit, name⟩ args
  else if name = "str" then
    l.expect (.char '(')
    let arg ← l |>.leftAssoc .disjunction
    l.expect (.char ')')
    return .stringify (← l.spanFrom start) arg
  else
    throw (.fault ⟨.unknownClass name, start⟩)
partial_fixpoint

/-- A dotted name is a value. With arguments behind it, its last name is a method of the value that
the others give. -/
def dottedValue (l : TokenList) : Indexed Node := do
  let start := (← l.peek).span
  let path ← l.dottedName
  if 1 < path.length && (← l.check (.char '(')) then
    let object := Node.lookup (← l.spanFrom start) path.dropLast
    let args ← l |>.arguments
    return .call (← l.spanFrom start) object (path.getLastD "") args
  else
    return .lookup (← l.spanFrom start) path
partial_fixpoint

/-- The arguments of a call. -/
def arguments (l : TokenList) : Indexed (List Node) := do
  l.expect (.char '(')
  if ← l.check (.char ')') then
    l.expect (.char ')')
    return []
  else
    let args ← l |>.testList
    l.expect (.char ')')
    return args
partial_fixpoint

/-- Expressions with commas between them. -/
def testList (l : TokenList) : Indexed (List Node) := do
  let e ← l |>.leftAssoc .disjunction
  if ← l.accept (.char ',') then
    return e :: (← l |>.testList)
  else
    return [e]
partial_fixpoint

end

/-- An expression. -/
def test (l : TokenList) : Indexed Node := l.leftAssoc .disjunction

/-! ### Statements that end with their line -/

/-- `target = value`: the last name of a dotted target is a field. -/
def assignment (l : TokenList) : Indexed Node := do
  let start := (← l.peek).span
  let path ← l.dottedName
  l.expect (.char '=')
  let value ← l.test
  let span := start.merge value.span
  match path with
  | [] => throw (.fault ⟨.invalidAssignmentTarget, start⟩)
  | [name] => return .assign span name value
  | _ => return .setField span path.dropLast (path.getLastD "") value

/-- Arguments in parentheses that end the line; if the parentheses are but the beginning of an
expression, the reader goes back to them. -/
def lineArguments (l : TokenList) : Indexed (Option (List Node)) := do
  if ← l.check (.char '(') then
    let checkpoint := (← get).current
    match ← attempt l.arguments with
    | some args =>
      if ← l.check .newline then
        return some args
      else
        rewind checkpoint
        return none
    | none =>
      rewind checkpoint
      return none
  else
    return none

/-- `print`, with or without parentheses around all arguments. -/
def printed (l : TokenList) (start : Span) : Indexed Node := do
  match ← l.lineArguments with
  | some args => return .print (← l.spanFrom start) args
  | none =>
    if ← l.check .newline then
      return .print (← l.spanFrom start) []
    else
      let args ← l.testList
      return .print (← l.spanFrom start) args

/-- `return`, which gives nothing if no value follows. -/
def returned (l : TokenList) (start : Span) : Indexed Node := do
  let value ← if ← l.check .newline then pure (.literal start .none) else l.test
  return .ret (start.merge value.span) value

/-- A statement that ends with its line. -/
def simple (l : TokenList) : Indexed Node := do
  let start := (← l.peek).span
  if ← l.accept (.keyword .kReturn) then
    l.returned start
  else if ← l.accept (.keyword .kPrint) then
    l.printed start
  else if ← l.isAssignment then
    l.assignment
  else
    l.test

/-! ### Statements with blocks -/

/-- The class that a class derives from, if it names one; its body must be closed. -/
def parentClass (l : TokenList) : Indexed (Option ClassId) := do
  if ← l.accept (.char '(') then
    let name ← l.expectName
    if ← finishes name then
      l.expect (.char ')')
      return some ⟨l.unit, name⟩
    else
      throw (.fault ⟨.unknownClass name, ← l.lastSpan⟩)
  else
    return none

/-- The parameters of a method as they are written. -/
def parameters (l : TokenList) : Indexed (List String) := do
  l.expect (.char '(')
  if ← l.check (.char ')') then
    l.expect (.char ')')
    return []
  else
    let names ← l.nameList
    l.expect (.char ')')
    return names

mutual

/-- A statement. -/
def statement (l : TokenList) : Indexed Node := do
  match (← l.peek).kind with
  | .keyword .kClass => l |>.classDefinition
  | .keyword .kIf => l |>.conditional
  | .keyword .kDef =>
    throw (.fault ⟨.general "methods can only be defined inside a class", (← l.peek).span⟩)
  | _ =>
    let node ← l.simple
    l.expect .newline
    return node
partial_fixpoint

/-- Statements up to one of the tokens that `stop` picks. -/
def statements (l : TokenList) (stop : TokenKind → Bool) : Indexed (List Node) := do
  if stop (← l.peek).kind then
    return []
  else
    let node ← l |>.statement
    return node :: (← l |>.statements stop)
partial_fixpoint

/-- The indented block behind a colon. -/
def suite (l : TokenList) : Indexed Node := do
  l.expect .newline
  let start := (← l.peek).span
  l.expect .indent
  let body ← l |>.statements Parser.endsBlock
  l.expect .dedent
  return .block (← l.spanFrom start) body
partial_fixpoint

/-- A conditional. -/
def conditional (l : TokenList) : Indexed Node := do
  let start := (← l.peek).span
  l.expect (.keyword .kIf)
  let cond ← l.test
  l.expect (.char ':')
  let yes ← l |>.suite
  if ← l.accept (.keyword .kElse) then
    l.expect (.char ':')
    let no ← l |>.suite
    return .ifElse (← l.spanFrom start) cond yes (some no)
  else
    return .ifElse (← l.spanFrom start) cond yes none
partial_fixpoint

/-- A method of a class. -/
def method (l : TokenList) : Indexed Method := do
  let start := (← l.peek).span
  l.expect (.keyword .kDef)
  let name ← l.expectName
  let params ← l.parameters
  l.expect (.char ':')
  let body ← l |>.suite
  return ⟨name, Parser.withoutSelf params, .methodBody (← l.spanFrom start) body⟩
partial_fixpoint

/-- The methods of a class behind the first. -/
def methods (l : TokenList) : Indexed (List Method) := do
  if Parser.endsBlock (← l.peek).kind then
    return []
  else
    let m ← l |>.method
    return m :: (← l |>.methods)
partial_fixpoint

/-- A class definition, of a name that no class has yet. -/
def classDefinition (l : TokenList) : Indexed Node := do
  let start := (← l.peek).span
  l.expect (.keyword .kClass)
  let name ← l.expectName
  if ← declares name then
    throw (.fault ⟨.duplicateClass name, ← l.lastSpan⟩)
  else
    let parent ← l.parentClass
    l.expect (.char ':')
    l.expect .newline
    l.expect .indent
    openClass name
    let first ← l |>.method
    let others ← l |>.methods
    l.expect .dedent
    closeClass name
    return .classDef (← l.spanFrom start) ⟨⟨l.unit, name⟩, parent, first :: others⟩
partial_fixpoint

end

/-- A program. -/
def program (l : TokenList) : Indexed Node := do
  let start := (← l.peek).span
  let body ← l.statements (· = .eof)
  return .block (start.merge (← l.peek).span) body

end TokenList

end ClassScript

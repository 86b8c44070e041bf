import ClassScript.Syntax.Parser

/-!
# Expressions

From the loosest to the tightest: `or`, `and`, `not`, one comparison, sums, products, the sign,
method calls, primaries.  Three of these levels are entered again from below, always behind a token:
`Level` names them, and `expression n` reads them in a text of at most `n` tokens.
-/

namespace ClassScript

/-- The levels that an expression may be nested at. -/
inductive Level where
  | test | negation | signed
  deriving DecidableEq, Repr

namespace Parser

/-- A node over the texts of two others. -/
def joined (node : Span → Node → Node → Node) (left right : Node) : Node :=
  node (left.span.merge right.span) left right

/-- Operands behind operators of one level, taken up from the left; at most `n` of them. -/
def operands (join? : TokenKind → Option (Node → Node → Node)) (operand : Parser Node) :
    Nat → Node → Parser Node
  | 0, left => return left
  | n + 1, left => do
    match join? (← peek).kind with
    | none => return left
    | some join =>
      skip
      let right ← operand
      operands join? operand n (join left right)

/-- Operands with operators of one level between them. -/
def leftAssoc (join? : TokenKind → Option (Node → Node → Node)) (operand : Parser Node)
    (bound : Nat) : Parser Node := do
  let left ← operand
  operands join? operand bound left

/-- The node that `or` makes. -/
def or? : TokenKind → Option (Node → Node → Node)
  | .keyword .kOr => some (joined (.logic · .or))
  | _ => none

/-- The node that `and` makes. -/
def and? : TokenKind → Option (Node → Node → Node)
  | .keyword .kAnd => some (joined (.logic · .and))
  | _ => none

/-- The node that the operator of a sum makes. -/
def sum? : TokenKind → Option (Node → Node → Node)
  | .char '+' => some (joined (.arith · .add))
  | .char '-' => some (joined (.arith · .sub))
  | _ => none

/-- The node that the operator of a product makes. -/
def product? : TokenKind → Option (Node → Node → Node)
  | .char '*' => some (joined (.arith · .mul))
  | .char '/' => some (joined (.arith · .div))
  | _ => none

/-- The comparison that a token stands for. -/
def comparator? : TokenKind → Option Comparator
  | .eq => some .eq
  | .ne => some .ne
  | .le => some .le
  | .ge => some .ge
  | .char '<' => some .lt
  | .char '>' => some .gt
  | _ => none

/-- The names behind the first of a dotted name, at most `n`. A dot that no name follows is left. -/
def moreNames : Nat → Parser (List String)
  | 0 => return []
  | n + 1 => do
    if ← nextIs (.char '.') then
      match (← peekSecond).kind with
      | .name x =>
        skip
        skip
        return x :: (← moreNames n)
      | _ => return []
    else
      return []

/-- A name, or names with dots between them. -/
def dottedName (bound : Nat) : Parser (List String) := do
  let x ← expectName
  return x :: (← moreNames bound)

section

variable (bound : Nat) (inner : Level → Parser Node)

/-- The arguments of a call. -/
def arguments : Parser (List Node) := parenthesized (inner .test) bound

/-- A name with arguments: an instance of a declared class, or else the conversion `str`. -/
def callByName (name : String) (start : Span) : Parser Node := do
  if (← get).declares name then
    let args ← arguments bound inner
    return .new (← spanFrom start) ⟨(← get).unit, name⟩ args
  else if name = "str" then
    expect (.char '(')
    let arg ← inner .test
    expect (.char ')')
    return .stringify (← spanFrom start) arg
  else
    throw ⟨.unknownClass name, start⟩

/-- A dotted name is a value. With arguments behind it, its last name is a method of the value that
the others give. -/
def dottedValue : Parser Node := do
  let start := (← peek).span
  let path ← dottedName bound
  if 1 < path.length && (← nextIs (.char '(')) then
    let object := Node.lookup (← spanFrom start) path.dropLast
    let args ← arguments bound inner
    return .call (← spanFrom start) object (path.getLastD "") args
  else
    return .lookup (← spanFrom start) path

/-- A literal, an expression in parentheses, a name, or a name with arguments. -/
def primary : Parser Node := do
  let t ← peek
  match t.kind with
  | .name x =>
    if (← peekSecond).kind = .char '(' then
      skip
      callByName bound inner x t.span
    else
      dottedValue bound inner
  | .number n =>
    skip
    return .literal t.span (.int n)
  | .string s =>
    skip
    return .literal t.span (.str s)
  | .keyword .kTrue =>
    skip
    return .literal t.span (.bool true)
  | .keyword .kFalse =>
    skip
    return .literal t.span (.bool false)
  | .keyword .kNone =>
    skip
    return .literal t.span .none
  | .char '(' =>
    skip
    let e ← inner .test
    expect (.char ')')
    return e
  | _ => unexpected "expression" t

/-- Method calls on an object, one on the result of the other, at most `n`. -/
def methodCalls : Nat → Node → Parser Node
  | 0, object => return object
  | n + 1, object => do
    if ← accept (.char '.') then
      let method ← expectName
      let args ← arguments bound inner
      methodCalls n (.call (← spanFrom object.span) object method args)
    else
      return object

/-- A negative sign takes the operand from zero. -/
def signed : Parser Node := do
  let start := (← peek).span
  if ← accept (.char '-') then
    let arg ← inner .signed
    return joined (.arith · .sub) (.literal start (.int 0)) arg
  else
    let object ← primary bound inner
    methodCalls bound inner bound object

/-- Products. -/
def product : Parser Node := leftAssoc product? (signed bound inner) bound

/-- Sums. -/
def sum : Parser Node := leftAssoc sum? (product bound inner) bound

/-- At most one comparison of two sums. -/
def comparison : Parser Node := do
  let left ← sum bound inner
  match comparator? (← peek).kind with
  | none => return left
  | some op =>
    skip
    let right ← sum bound inner
    return joined (.compare · op) left right

/-- A comparison, or the negation of a negation. -/
def negation : Parser Node := do
  let start := (← peek).span
  if ← accept (.keyword .kNot) then
    let arg ← inner .negation
    return .not (start.merge arg.span) arg
  else
    comparison bound inner

/-- Conjunctions. -/
def conjunction : Parser Node := leftAssoc and? (negation bound inner) bound

/-- Disjunctions, which are the whole expressions. -/
def disjunction : Parser Node := leftAssoc or? (conjunction bound inner) bound

/-- The expressions of each level, made of those that are nested in them. -/
def atLevel : Level → Parser Node
  | .test => disjunction bound inner
  | .negation => negation bound inner
  | .signed => signed bound inner

end

/-- The expressions of each level where at most `n` tokens are left. -/
def expression : Nat → Level → Parser Node
  | 0, _ => do unexpected "expression" (← peek)
  | n + 1, level => atLevel (n + 1) (expression n) level

end Parser

end ClassScript

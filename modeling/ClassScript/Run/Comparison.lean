import ClassScript.Run.Call

/-!
# Comparisons

Equality and the strict order are primitive; the other four are made of them.  Values of one
primitive type are compared as what they are, and objects by methods of the left one; values of
different types are not compared at all.
-/

namespace ClassScript.Exec

/-- The name of the method that tells whether an object equals another. -/
def eqName : String := "__eq__"

/-- The name of the method that tells whether an object is less than another. -/
def ltName : String := "__lt__"

section

variable (call : Call) (span : Span)

/-- Two values whose types do not go together. -/
def mismatch (op : Comparator) (left right : Value) : Exec Bool := do
  raise (.typeError (.notComparable op (← typeName left) (← typeName right))) span

/-- Leaves a comparison to a method of the left object. -/
def delegate (method : String) (op : Comparator) (left : Handle) (right : Value) : Exec Bool := do
  let o ← object left span
  let cls := (← get).heap.classOf o
  if (← get).heap.hasMethod o method 1 then
    tell (.delegated cls.name method)
    return (← call o method [right] span).truthy
  else
    raise (.comparisonError (.missingMethod cls.name op method)) span

/-- Whether two values are equal. -/
def equal : Value → Value → Exec Bool
  | .none, .none => return true
  | .bool a, .bool b => return a = b
  | .int a, .int b => return a = b
  | .str a, .str b => return a = b
  | .obj a, .obj b => delegate call span eqName .eq a (.obj b)
  | .cls _, .cls _ => raise (.comparisonError (.unordered .eq)) span
  | left, right => mismatch span .eq left right

/-- Whether a value is less than another. Texts are ordered by the code points of their
characters. -/
def less : Value → Value → Exec Bool
  | .bool a, .bool b => return a < b
  | .int a, .int b => return a < b
  | .str a, .str b => return a < b
  | .obj a, .obj b => delegate call span ltName .lt a (.obj b)
  | .none, .none => raise (.comparisonError (.unordered .lt)) span
  | .cls _, .cls _ => raise (.comparisonError (.unordered .lt)) span
  | left, right => mismatch span .lt left right

/-- Whether a value is greater than another: neither less nor equal. -/
def greater (left right : Value) : Exec Bool := do
  if ← less call span left right then
    return false
  else
    return !(← equal call span left right)

/-- Whether two values that are held compare in this way. -/
def compare (op : Comparator) (left right : Value) : Exec Bool :=
  match op with
  | .eq => equal call span left right
  | .ne => do return !(← equal call span left right)
  | .lt => less call span left right
  | .gt => greater call span left right
  | .le => do return !(← greater call span left right)
  | .ge => do return !(← less call span left right)

end

end ClassScript.Exec

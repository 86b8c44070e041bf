import ClassScript.Run.Call

/-!
# Arithmetic

Integers are those of 64 bits with a sign.  An operation is carried out on the whole numbers, and its
result is one of the language or an overflow.  Main statement: a result that is given is the exact
one.
-/

namespace ClassScript

namespace ArithOp

/-- The exact result of an operation on whole numbers. Quotients are cut towards zero. -/
def exact : ArithOp → Int → Int → Int
  | add, a, b => a + b
  | sub, a, b => a - b
  | mul, a, b => a * b
  | div, a, b => a.tdiv b

/-- The integer of the language that a whole number is, if it is one. -/
def toInt64? (n : Int) : Option Int64 :=
  if -0x8000000000000000 ≤ n ∧ n ≤ 0x7fffffffffffffff then some (Int64.ofInt n) else none

theorem toInt_of_toInt64? {n : Int} {i : Int64} (h : toInt64? n = some i) : i.toInt = n := by
  unfold toInt64? at h
  split at h
  · cases h
    rename_i hn
    exact Int64.toInt_ofInt_of_le (by omega) (by omega)
  · cases h

/-- The result of an operation on integers of the language. -/
def onInts (op : ArithOp) (a b : Int64) : Except RuntimeFault Int64 :=
  if op = .div ∧ b = 0 then .error .divisionByZero
  else match toInt64? (op.exact a.toInt b.toInt) with
    | some n => .ok n
    | none => .error (.overflow op)

theorem toInt_of_onInts {op : ArithOp} {a b c : Int64} (h : op.onInts a b = .ok c) :
    c.toInt = op.exact a.toInt b.toInt := by
  unfold onInts at h
  split at h
  · cases h
  · split at h
    · cases h
      rename_i h'
      exact toInt_of_toInt64? h'
    · cases h

/-- What goes wrong in an operation on integers is a division by zero or an overflow. -/
theorem fault_of_onInts {op : ArithOp} {a b : Int64} {fault : RuntimeFault}
    (h : op.onInts a b = .error fault) : fault = .divisionByZero ∨ fault = .overflow op := by
  unfold onInts at h
  split at h
  · cases h
    exact .inl rfl
  · split at h
    · cases h
    · cases h
      exact .inr rfl

end ArithOp

namespace Exec

/-- The name of the method that adds to an object. -/
def addName : String := "__add__"

/-- The value of an operation on two values that are held. Texts are joined by a sum, and objects
may say what a sum of theirs is. -/
def arithmetic (call : Call) (op : ArithOp) (left right : Value) (span : Span) : Exec Value := do
  match op, left, right with
  | op, .int a, .int b =>
    match op.onInts a b with
    | .ok n => return .int n
    | .error fault => raise fault span
  | .add, .str a, .str b => return .str (a ++ b)
  | .add, .obj a, right =>
    let o ← object a span
    call o addName [right] span
  | op, left, right =>
    raise (.typeError (.unsupported op (← typeName left) (← typeName right))) span

end Exec

end ClassScript

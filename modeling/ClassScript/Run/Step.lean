import ClassScript.Run.Arithmetic
import ClassScript.Run.Comparison
import ClassScript.Run.Path
import ClassScript.Run.Text

/-!
# Execution

`execOver` carries out one node, given how the nodes below it are carried out and how methods are
called; `exec n` puts such steps together `n` deep.  A run that ends is the same for every greater `n`.
-/

namespace ClassScript.Exec

section

variable (call : Call) (exec : Node → Exec Value) (text : Span → Value → Exec String)

/-- Statements behind one that gave `last`. The value of the last one is the value of them all. -/
def block (last : Value) : List Node → Exec Value
  | [] => return last
  | n :: rest => do
    let v ← holding last (exec n)
    block v rest

/-- The values of two operands, given to an action that may rely on both. -/
def operands {α : Type} (left right : Node) (act : Value → Value → Exec α) : Exec α := do
  let a ← exec left
  holding a do
    let b ← exec right
    holding b (act a b)

/-- Sets a field of the object that a path leads to. The object is found before the value. -/
def assignField (path : List String) (field : String) (value : Node) (span : Span) :
    Exec Value := do
  let target ← readPath path span
  match target with
  | .obj a =>
    let o ← object a span
    let v ← holding (.obj (.owned o)) (exec value)
    modify fun m => { m with heap := m.heap.setField o field v }
    return v
  | v => raise (.typeError (.noObject field path (← typeName v))) span

/-- Whether both operands, or one of them, hold. The right one is looked at only if need be. -/
def logical (op : LogicOp) (left right : Node) : Exec Value := do
  let a := (← exec left).truthy
  match op, a with
  | .or, true => return .bool true
  | .and, false => return .bool false
  | _, _ => return .bool (← exec right).truthy

/-- Carries out a node. -/
def execOver : Node → Exec Value
  | .literal _ v => return v.toValue
  | .assign _ name value => do
    let v ← exec value
    modify fun m => { m with scope := m.scope.set name v }
    return v
  | .lookup span path => readPath path span
  | .print span args => print exec text span args
  | .call span object method args => callOn call exec object method args span
  | .stringify span arg => do
    let v ← exec arg
    return .str (← holding v (text span v))
  | .arith span op left right => operands exec left right fun a b => arithmetic call op a b span
  | .block _ body => block exec .none body
  | .ret span value => do
    let v ← exec value
    throw (.returning v span)
  | .classDef _ d => do
    tell (.classDefined d.id.name (d.parent.map ClassId.name) d.methods.length)
    modify fun m => { m with scope := m.scope.set d.id.name (.cls d.id) }
    return .none
  | .setField span path field value => assignField exec path field value span
  | .ifElse _ cond yes no => do
    let c ← exec cond
    holding c do
      if c.truthy then exec yes
      else match no with
        | some n => exec n
        | none => return .none
  | .logic _ op left right => logical exec op left right
  | .not _ arg => do return .bool !(← exec arg).truthy
  | .compare span op left right =>
    operands exec left right fun a b => do return .bool (← compare call span op a b)
  | .new span cls args => instantiate call exec cls args span
  | .methodBody _ body => returned (exec body)

end

mutual

/-- Carries out a node with fuel for `n` steps in one another. -/
def exec (limit : Option Nat) : Nat → Node → Exec Value
  | 0, _ => throw .exhausted
  | n + 1, node => execOver (callMethod limit (exec limit n)) (exec limit n) (text limit n) node

/-- The text of a value with fuel for `n` steps in one another. -/
def text (limit : Option Nat) : Nat → Span → Value → Exec String
  | 0, _, _ => throw .exhausted
  | n + 1, span, v => textOver (callMethod limit (exec limit n)) (text limit n) span v

end

end ClassScript.Exec

import ClassScript.Object.Heap
import ClassScript.Object.Release

/-!
# Ownership and life

Objects and classes live as long as something owns them.  An object owns its class and what its
fields own; a class owns its parent and the classes defined in its methods; bindings and values in
use own what they hold, and what they own is a root.  What nothing owns is released, and with it what
it alone has owned; a ring of owners keeps itself alive.
-/

namespace ClassScript

/-- What can be owned. -/
inductive Entity where
  | object (id : ObjId)
  | cls (id : ClassId)
  deriving DecidableEq, Repr

/-- What a value keeps alive. -/
def Value.owned : Value → List Entity
  | .cls c => [.cls c]
  | .obj (.owned o) => [.object o]
  | _ => []

/-- What the bindings of a scope keep alive. -/
def Scope.owned (s : Scope) : List Entity := s.entries.flatMap fun b => b.2.owned

/-- Whether a binding of a scope keeps something alive. -/
def Scope.owns (s : Scope) (e : Entity) : Bool := s.entries.any fun b => b.2.owned.contains e

/-- What an object keeps alive. -/
def Object.owned (ob : Object) : List Entity := .cls ob.cls :: ob.fields.owned

/-- What a class keeps alive. -/
def ClassOf.owned (d : ClassDecl) : List Entity := (d.parent.toList ++ d.nested).map .cls

theorem Scope.owns_iff {s : Scope} {e : Entity} : s.owns e = true ↔ e ∈ s.owned := by
  simp [Scope.owns, Scope.owned]

namespace Heap

/-- The number of things on a heap: objects and classes. -/
def population (h : Heap) : Nat := h.objects.size + h.classes.length

/-- The number under which something stands on a heap, the objects before the classes. -/
def slot? (h : Heap) : Entity → Option Nat
  | .object o => if o < h.objects.size then some o else none
  | .cls c => (h.classes.findIdx? fun d => d.id = c).map (h.objects.size + ·)

/-- What the thing of a number keeps alive. -/
def ownedAt (h : Heap) (i : Nat) : List Entity :=
  match h.objects[i]? with
  | some ob => ob.owned
  | none => ((h.classes[i - h.objects.size]?).map ClassOf.owned).getD []

/-- The numbers of what the thing of a number keeps alive. -/
def slotsAt (h : Heap) (i : Nat) : List Nat := (h.ownedAt i).filterMap h.slot?

/-- Whether something is alive: whether a line of owners leads to it from a root, or at least it is left
when everything without an owner is released. -/
def alive (h : Heap) (roots : List Entity) (e : Entity) : Bool :=
  match h.slot? e with
  | none => false
  | some i =>
    let outer := roots.filterMap h.slot?
    Release.reaches h.slotsAt i h.population outer (.replicate h.population false) ||
      Release.countOf (Release.remaining h.slotsAt h.population outer) i ≠ 0

/-- The object that a handle leads to. One that does not own it leads nowhere once it is dead. -/
def resolve (live : Entity → Bool) : Handle → Option ObjId
  | .owned o => some o
  | .shared o => if live (.object o) then some o else none

/-! ### Values as programs show them -/

/-- The name of a value's type. -/
def typeName (h : Heap) (live : Entity → Bool) : Value → String
  | .none => "NoneType"
  | .bool _ => "bool"
  | .int _ => "int"
  | .str _ => "str"
  | .cls _ => "class"
  | .obj a =>
    match resolve live a with
    | some o => (h.classOf o).name
    | none => "released instance"

/-- Digits that tell an object from all others, as many for each. -/
def address (o : ObjId) : String :=
  let digits := Nat.toDigits 16 o
  "0x7f" ++ String.ofList (List.replicate (10 - digits.length) '0' ++ digits)

/-- The text of a value whose class has no text of its own for it. -/
def display (h : Heap) (live : Entity → Bool) : Value → String
  | .none => "None"
  | .bool true => "True"
  | .bool false => "False"
  | .int n => toString n.toInt
  | .str s => s
  | .cls c => "Class " ++ c.name
  | .obj a =>
    match resolve live a with
    | some o => "<" ++ (h.classOf o).name ++ " object at " ++ address o ++ ">"
    | none => "<released object>"

end Heap

end ClassScript

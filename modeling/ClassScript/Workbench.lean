import ClassScript.Object.Ownership
import ClassScript.Text.Quoted

/-!
# The workbench

Objects without programs: classes by name, values in named registers.  A register owns its value
until the value is replaced or dropped.  A step that needs an object does nothing, and says so, where
the object is gone.
-/

namespace ClassScript

/-- Named classes, named values, and the heap they live on. -/
structure Workbench where
  heap : Heap := {}
  /-- The class that each name means now, the latest first. -/
  classes : List (String × ClassId) := []
  registers : Scope := {}

namespace Workbench

/-- Whether something is owned by a name or a register. -/
def isRoot (w : Workbench) (e : Entity) : Bool :=
  (w.classes.any fun c => Entity.cls c.2 = e) || w.registers.owns e

/-- All that is owned by a name or a register. -/
def roots (w : Workbench) : List Entity :=
  (w.classes.map fun c => .cls c.2) ++ w.registers.owned

theorem isRoot_iff {w : Workbench} {e : Entity} : w.isRoot e = true ↔ e ∈ w.roots := by
  simp [isRoot, roots, Scope.owns_iff]

/-- Whether something is alive. -/
def live (w : Workbench) (e : Entity) : Bool := w.isRoot e || w.heap.alive w.roots e

/-- The class that a name means. -/
def class? (w : Workbench) (name : String) : Option ClassId := w.classes.lookup name

/-- The value of a register. -/
def value (w : Workbench) (reg : String) : Value := (w.registers.get? reg).getD .none

/-- Puts a value into a register. -/
def put (w : Workbench) (reg : String) (v : Value) : Workbench :=
  { w with registers := w.registers.set reg v }

/-- Frees a register. -/
def drop (w : Workbench) (reg : String) : Workbench :=
  { w with registers := w.registers.remove reg }

/-- The object in a register, if there is one and it is alive. -/
def object? (w : Workbench) (reg : String) : Option ObjId :=
  match w.value reg with
  | .obj a => Heap.resolve w.live a
  | _ => none

/-- Defines a class. Its name means it from now on. -/
def define (w : Workbench) (name : String) (methods : List Method) (parent : Option String) :
    Workbench :=
  let id : ClassId := ⟨w.heap.classes.length, name⟩
  { w with
    heap := w.heap.addClasses [⟨id, parent.bind w.class?, methods⟩]
    classes := (name, id) :: w.classes }

/-- Puts a new object of a class into a register. -/
def create (w : Workbench) (reg : String) (c : ClassId) : Workbench :=
  { w with heap := w.heap.allocate c }.put reg (.obj (.owned w.heap.fresh))

/-- Puts a handle to the object of a register into another one, unless the object is gone. -/
def link (w : Workbench) (reg source : String) (handle : ObjId → Handle) : Option Workbench :=
  (w.object? source).map fun o => w.put reg (.obj (handle o))

/-- Sets a field of the object in a register to the value of another register. -/
def setField (w : Workbench) (reg field source : String) : Option Workbench :=
  (w.object? reg).map fun o => { w with heap := w.heap.setField o field (w.value source) }

/-- The value of a field of the object in a register. -/
def field? (w : Workbench) (reg field : String) : Option (Option Value) :=
  (w.object? reg).map fun o => w.heap.field? o field

/-- Whether the object in a register has a method. -/
def hasMethod (w : Workbench) (reg name : String) (arity : Nat) : Option Bool :=
  (w.object? reg).map fun o => w.heap.hasMethod o name arity

/-- Whether two registers hold the same object. -/
def same (w : Workbench) (a b : String) : Option Bool := do
  let o ← w.object? a
  let p ← w.object? b
  return o = p

/-- How the handle in a register looks from inside: an owned object with its class and the names of
its fields, or a shared one. -/
def inspect (w : Workbench) (reg : String) : String :=
  match w.value reg with
  | .obj (.owned o) =>
    let fields := ", ".intercalate ((w.heap.fields o).names.map Text.quoted)
    "Owned(Instance \x7b class: " ++ Text.quoted (w.heap.classOf o).name ++ ", fields: [" ++
      fields ++ "] \x7d)"
  | _ => "Shared"

end Workbench

end ClassScript

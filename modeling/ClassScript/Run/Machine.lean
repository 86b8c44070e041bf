import ClassScript.Object.Ownership
import ClassScript.Run.Error
import ClassScript.Run.Event
import ClassScript.Run.Sink

/-!
# The machine

The state of a run and the actions on it.  An action ends with a result or with a signal: a `return`
on its way to the method that it ends, an error, or the end of the fuel.  Values that are in use
while other code runs are held, since otherwise nothing might own them.
-/

namespace ClassScript

/-- The state of a run. -/
structure Machine where
  /-- The bindings of the code that runs: the globals, or the frame of a call. -/
  scope : Scope := {}
  /-- The bindings of the code that waits for a call to end, the latest first. -/
  callers : List Scope := []
  /-- The number of method bodies that are being run. -/
  depth : Nat := 0
  /-- Values in use that no binding needs to own. -/
  held : List Value := []
  /-- The classes of the trees at hand. -/
  pinned : List ClassId := []
  heap : Heap := {}
  sink : Sink := {}
  trace : Array Event := #[]

namespace Machine

/-- Whether something is owned from outside the heap. -/
def isRoot (m : Machine) (e : Entity) : Bool :=
  (m.pinned.any fun c => Entity.cls c = e) || (m.held.any fun v => v.owned.contains e) ||
    m.scope.owns e || m.callers.any fun s => s.owns e

/-- All that is owned from outside the heap. -/
def roots (m : Machine) : List Entity :=
  m.pinned.map .cls ++ m.held.flatMap Value.owned ++ m.scope.owned ++ m.callers.flatMap Scope.owned

theorem isRoot_iff {m : Machine} {e : Entity} : m.isRoot e = true ↔ e ∈ m.roots := by
  simp [isRoot, roots, Scope.owns_iff, or_assoc]

theorem mem_roots {m : Machine} {e : Entity} :
    e ∈ m.roots ↔ (∃ c ∈ m.pinned, .cls c = e) ∨ (∃ v ∈ m.held, e ∈ v.owned) ∨ e ∈ m.scope.owned ∨
      ∃ s ∈ m.callers, e ∈ s.owned := by
  simp [roots]

/-- Whether something is alive. -/
def live (m : Machine) (e : Entity) : Bool := m.isRoot e || m.heap.alive m.roots e

/-- The object that a handle leads to. -/
def resolve (m : Machine) (a : Handle) : Option ObjId := Heap.resolve m.live a

/-- A handle that leads somewhere leads to its own object, which is alive or else owned. -/
theorem resolve_eq_some {m : Machine} {a : Handle} {o : ObjId} (h : m.resolve a = some o) :
    a = .owned o ∨ a = .shared o ∧ m.live (.object o) = true := by
  cases a with
  | owned p => exact .inl (congrArg Handle.owned (Option.some.inj h))
  | shared p =>
    change (if m.live (.object p) = true then some p else none) = some o at h
    split at h
    · rename_i hlive
      cases h
      exact .inr ⟨rfl, hlive⟩
    · cases h

/-- The name of a value's type. -/
def typeName (m : Machine) (v : Value) : String := m.heap.typeName m.live v

end Machine

/-- What ends an action before its result. -/
inductive Signal where
  /-- A `return`, with the node that it was written at. -/
  | returning (v : Value) (span : Span)
  | error (e : RuntimeError)
  /-- The fuel is used up. -/
  | exhausted
  deriving DecidableEq, Repr

/-- An action of a machine. -/
abbrev Exec := ExceptT Signal (StateM Machine)

namespace Exec

/-- Stops with an error at a node. -/
def raise {α : Type} (fault : RuntimeFault) (span : Span) : Exec α :=
  throw (.error (.raised fault span))

/-- Tells of an event. -/
def tell (e : Event) : Exec Unit := modify fun m => { m with trace := m.trace.push e }

/-- Prints a text. A text that does not fit is cut, and an error. -/
def write (text : String) : Exec Unit := do
  let fits := (← get).sink.fits text
  modify fun m => { m with sink := m.sink.write text }
  if fits then return else throw (.error (.output Sink.fullText))

/-- Does an action while a value is held. -/
def holding {α : Type} (v : Value) (act : Exec α) : Exec α := fun m =>
  let held := m.held
  let (r, m) := act { m with held := v :: held }
  (r, { m with held := held })

/-- Does an action in a frame of its own, which is counted while it is there. -/
def inFrame {α : Type} (frame : Scope) (act : Exec α) : Exec α := fun m =>
  let scope := m.scope
  let callers := m.callers
  let (r, m) := act { m with scope := frame, callers := scope :: callers, depth := m.depth + 1 }
  (r, { m with scope := scope, callers := callers, depth := m.depth - 1 })

/-- Tells of an action's beginning and, however it comes, of its end. -/
def traced {α : Type} (e : Event) (act : Exec α) : Exec α := fun m =>
  let (r, m) := act { m with trace := m.trace.push e }
  (r, { m with trace := m.trace.push .leave })

/-- The object of a handle, which must be alive. -/
def object (a : Handle) (span : Span) : Exec ObjId := do
  match (← get).resolve a with
  | some o => return o
  | none => raise (.typeError .released) span

/-- The name of a value's type. -/
def typeName (v : Value) : Exec String := return (← get).typeName v

end Exec

end ClassScript

import ClassScript.Run.Step
import ClassScript.Syntax.Program

/-!
# Running programs

A tree is loaded into a machine, which from then on owns its classes, and interpreted there.  The
program of a text is run in a fresh machine; its output is completed also if it fails, and a failure
to complete it counts for more than one of the run.
-/

namespace ClassScript

namespace Machine

/-- A machine that has the classes of a tree at hand. -/
def load (m : Machine) (root : Node) : Machine :=
  { m with
    heap := m.heap.addClasses root.classes
    pinned := root.classes.map ClassOf.id ++ m.pinned }

/-- A machine that has no classes of trees at hand any more. -/
def unload (m : Machine) : Machine := { m with pinned := [] }

/-- What a signal means outside of all methods; nothing if the fuel is used up. -/
def verdict : Except Signal Value → Option (Except RuntimeError Value)
  | .ok v => some (.ok v)
  | .error (.returning _ span) => some (.error (.raised .returnOutsideMethod span))
  | .error (.error e) => some (.error e)
  | .error .exhausted => none

/-- Runs a tree that is loaded, with the limit to the depth of calls and the fuel given. -/
def interpret (m : Machine) (limit : Option Nat) (fuel : Nat) (root : Node) :
    Option (Except RuntimeError Value) × Machine :=
  let (r, m) := Exec.exec limit fuel root m
  (verdict r, m)

end Machine

/-- How a program ended, and what it did up to there. -/
structure Report where
  failure : Option Failure
  output : ByteArray := .empty
  trace : Array Event := #[]

/-- Outputs are compared as arrays of bytes. -/
instance : DecidableEq Report := fun a b =>
  decidable_of_iff (a.failure = b.failure ∧ a.output.data = b.output.data ∧ a.trace = b.trace) <| by
    rw [← ByteArray.ext_iff, ← Report.mk.injEq]

/-- More fuel than any run uses up that ends at all. -/
def plenty : Nat := 0x4000000000000000

/-- Runs the program of a text with a sink for its output; nothing if the fuel is used up. -/
def runText (text : String) (limit : Option Nat) (sink : Sink) (fuel : Nat := plenty) :
    Option Report :=
  match Node.ofText 0 text with
  | .error f => some { failure := some f }
  | .ok root =>
    let start : Machine := { sink := sink }
    let (r, m) := (start.load root).interpret limit fuel root
    r.map fun r =>
      let failure := if m.sink.flushFails then some (.io Sink.flushText) else
        match r with
        | .ok _ => none
        | .error e => some (.runtime e)
      { failure := failure, output := m.sink.written, trace := m.trace }

end ClassScript

import ClassScript.Run.Program

/-!
# Sessions

Programs run one after another with the same globals.  Each has its own output, and its tree goes
before the next one comes; its classes stay only as far as the globals still own them.
-/

namespace ClassScript

/-- A session between two programs. -/
structure Session where
  machine : Machine := {}
  /-- The number of programs so far. -/
  count : Nat := 0

/-- What a program did in a session. -/
structure SessionStep where
  result : Except RuntimeError Value
  output : ByteArray

namespace Session

/-- Runs the program of a text. The tree stays at hand until `forget`; nothing if the fuel is used
up, and a text that is no program leaves the globals alone. -/
def run (s : Session) (text : String) (limit : Option Nat) (fuel : Nat := plenty) :
    Option (Except Failure SessionStep × Session) :=
  let s := { s with count := s.count + 1 }
  match Node.ofText s.count text with
  | .error f => some (.error f, s)
  | .ok root =>
    let m := { s.machine with sink := {} }
    let (r, m) := (m.load root).interpret limit fuel root
    r.map fun r => (.ok ⟨r, m.sink.written⟩, { s with machine := m })

/-- The session behind the tree of the last program. -/
def forget (s : Session) : Session := { s with machine := s.machine.unload }

/-- Frees a global. -/
def remove (s : Session) (name : String) : Option Value × Session :=
  let m := s.machine
  (m.scope.get? name, { s with machine := { m with scope := m.scope.remove name } })

end Session

end ClassScript

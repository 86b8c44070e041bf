import ClassScript.Run.Machine

/-!
# Dotted names

The first name of a path is read from the scope, each other one from the fields of the object found
so far.  What is found at the end is owned: a handle that does not own its object is exchanged for
one that does.
-/

namespace ClassScript

/-- How a path is written. -/
def dotted (path : List String) : String := ".".intercalate path

namespace Machine

/-- The value behind more names, read from a value that the names `seen` have led to. The path up to
the name that is missing is told. -/
def follow (m : Machine) (v : Value) (seen : List String) : List String → Except String Value
  | [] => .ok v
  | x :: xs =>
    let seen := seen ++ [x]
    match v with
    | .obj a =>
      match (m.resolve a).bind fun o => m.heap.field? o x with
      | some w => follow m w seen xs
      | none => .error (dotted seen)
    | _ => .error (dotted seen)

/-- A value found under a path, with a handle that owns its object. -/
def owning (m : Machine) (path : List String) : Value → Except String Value
  | .obj (.shared o) =>
    if m.live (.object o) then .ok (.obj (.owned o)) else .error (dotted path)
  | v => .ok v

/-- The value of a path, or the part of it that is not defined. -/
def read (m : Machine) : List String → Except String Value
  | [] => .error ""
  | x :: xs =>
    match m.scope.get? x with
    | none => .error x
    | some v =>
      match m.follow v [x] xs with
      | .ok v => m.owning (x :: xs) v
      | .error name => .error name

end Machine

namespace Exec

/-- The value of a path. -/
def readPath (path : List String) (span : Span) : Exec Value := do
  match (← get).read path with
  | .ok v => return v
  | .error name => raise (.nameError name) span

end Exec

end ClassScript

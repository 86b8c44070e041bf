import ClassScript.Object.Value

/-!
# Scopes

Names bound to values, in the order in which they were first bound.  Scopes are flat: the globals,
the frame of each call and the fields of each object are scopes of their own.  Main statements: a
name reads back what was bound to it last, no other name is touched, and binding a known name keeps
the order of the names.
-/

namespace ClassScript

/-- Bindings in the order of their definition. -/
structure Scope where
  entries : List (String × Value) := []
  deriving DecidableEq, Repr, Inhabited

namespace Scope

/-- The bound names in the order of their definition. -/
def names (s : Scope) : List String := s.entries.map Prod.fst

/-- The number of bindings. -/
def size (s : Scope) : Nat := s.entries.length

/-- Whether nothing is bound. -/
def isEmpty (s : Scope) : Bool := s.entries.isEmpty

/-- The value of a name. -/
def get? (s : Scope) (name : String) : Option Value := s.entries.lookup name

/-- Whether a name is bound. -/
def contains (s : Scope) (name : String) : Bool := (s.get? name).isSome

/-- Bindings with a name bound anew: in its old place, or behind all others. -/
def rebind (name : String) (v : Value) : List (String × Value) → List (String × Value)
  | [] => [(name, v)]
  | (x, w) :: es => if x = name then (x, v) :: es else (x, w) :: rebind name v es

/-- Binds a name. -/
def set (s : Scope) (name : String) (v : Value) : Scope := ⟨rebind name v s.entries⟩

/-- Frees a name; the others keep their order. -/
def remove (s : Scope) (name : String) : Scope := ⟨s.entries.filter fun e => e.1 ≠ name⟩

/-- Binds names to values one after another. -/
def setAll (s : Scope) (bindings : List (String × Value)) : Scope :=
  bindings.foldl (fun s b => s.set b.1 b.2) s

@[simp] theorem get?_empty (x : String) : ({} : Scope).get? x = none := rfl

@[simp] theorem lookup_rebind_self (x : String) (v : Value) (es : List (String × Value)) :
    (rebind x v es).lookup x = some v := by
  induction es with
  | nil => simp [rebind]
  | cons e es ih =>
    obtain ⟨y, w⟩ := e
    by_cases h : y = x
    · simp [rebind, h]
    · have h' : (x == y) = false := by simpa using Ne.symm h
      simp [rebind, h, List.lookup_cons, h', ih]

theorem lookup_rebind_of_ne {x y : String} (h : y ≠ x) (v : Value) (es : List (String × Value)) :
    (rebind x v es).lookup y = es.lookup y := by
  induction es with
  | nil =>
    have h' : (y == x) = false := by simpa using h
    simp [rebind, List.lookup_cons, h']
  | cons e es ih =>
    obtain ⟨z, w⟩ := e
    by_cases hz : z = x
    · have h' : (y == z) = false := by simpa [hz] using h
      simp [rebind, hz, List.lookup_cons, hz ▸ h']
    · simp only [rebind, hz, if_false, List.lookup_cons, ih]

theorem map_fst_rebind (x : String) (v : Value) (es : List (String × Value)) :
    (rebind x v es).map Prod.fst =
      if x ∈ es.map Prod.fst then es.map Prod.fst else es.map Prod.fst ++ [x] := by
  induction es with
  | nil => simp [rebind]
  | cons e es ih =>
    obtain ⟨y, w⟩ := e
    by_cases h : y = x
    · simp [rebind, h]
    · by_cases hx : x ∈ es.map Prod.fst
      · simp only [rebind, h, if_false, List.map_cons, ih, if_pos hx]
        rw [if_pos (List.mem_cons_of_mem _ hx)]
      · have hx' : x ∉ y :: es.map Prod.fst := by simp [Ne.symm h, hx]
        simp only [rebind, h, if_false, List.map_cons, ih, if_neg hx, if_neg hx', List.cons_append]

@[simp] theorem get?_set_self (s : Scope) (x : String) (v : Value) :
    (s.set x v).get? x = some v :=
  lookup_rebind_self x v s.entries

theorem get?_set_of_ne (s : Scope) {x y : String} (v : Value) (h : y ≠ x) :
    (s.set x v).get? y = s.get? y :=
  lookup_rebind_of_ne h v s.entries

/-- A known name keeps its place; a new one comes last. -/
theorem names_set (s : Scope) (x : String) (v : Value) :
    (s.set x v).names = if x ∈ s.names then s.names else s.names ++ [x] :=
  map_fst_rebind x v s.entries

@[simp] theorem get?_remove_self (s : Scope) (x : String) : (s.remove x).get? x = none := by
  simp only [get?, remove, List.lookup_eq_none_iff, List.mem_filter]
  rintro e ⟨-, h⟩
  simpa using fun h' : x = e.1 => (by simpa using h : e.1 ≠ x) h'.symm

end Scope

end ClassScript

import ClassScript.Syntax.Node

/-!
# Values

The values of the language.  Primitive values are compared by what they are; classes and objects
are known by identity.  A handle either owns its object, and so keeps it alive, or does not.
-/

namespace ClassScript

/-- An object of a heap. No two objects of a heap ever have the same one. -/
abbrev ObjId := Nat

/-- A reference to an object. -/
inductive Handle where
  /-- Keeps the object alive. -/
  | owned (id : ObjId)
  /-- Leaves the life of the object to others. -/
  | shared (id : ObjId)
  deriving DecidableEq, Repr

/-- The object that a handle was made for. -/
def Handle.id : Handle → ObjId
  | owned o | shared o => o

/-- A value of the language. -/
inductive Value where
  | none
  | bool (b : Bool)
  | int (n : Int64)
  | str (text : String)
  | cls (id : ClassId)
  | obj (handle : Handle)
  deriving DecidableEq, Repr, Inhabited

/-- The value of a constant. -/
def Literal.toValue : Literal → Value
  | none => .none
  | bool b => .bool b
  | int n => .int n
  | str s => .str s

namespace Value

/-- The value that counts as a condition. Classes and objects never hold. -/
def truthy : Value → Bool
  | none | cls _ | obj _ => false
  | bool b => b
  | int n => n ≠ 0
  | str s => s ≠ ""

end Value

end ClassScript

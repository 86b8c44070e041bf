import ClassScript.Object.Scope
import ClassScript.Syntax.Classes

/-!
# The heap

Objects by number and classes by identity, with the look-up of methods along the line of parents.
Nothing is ever taken from a heap; which of its contents are still alive is told by their owners
(`ClassScript.Object.Ownership`).  Each class stands behind its parent and the classes defined in its
methods, so the line of parents leads towards the older ones and ends.
-/

namespace ClassScript

/-- An object: its class and its fields. -/
structure Object where
  cls : ClassId
  fields : Scope
  deriving DecidableEq, Repr, Inhabited

/-- Objects by number, and classes with the latest first. -/
structure Heap where
  objects : Array Object := #[]
  classes : List ClassDecl := []

/-! ### Methods -/

/-- The first method of a name in a class. -/
def ClassOf.own? (d : ClassDecl) (name : String) : Option Method :=
  d.methods.find? fun m => m.name == name

/-- The nearest method of a name: in the class itself or else along its parents. -/
def methodNamed? : List ClassDecl → ClassId → String → Option Method
  | [], _, _ => none
  | d :: older, c, name =>
    if d.id = c then
      match d.own? name, d.parent with
      | some m, _ => some m
      | none, some p => methodNamed? older p name
      | none, none => none
    else methodNamed? older c name

/-- A method that is found is one of a class. -/
theorem exists_of_methodNamed? {ds : List ClassDecl} {c : ClassId} {name : String} {method : Method}
    (h : methodNamed? ds c name = some method) : ∃ d ∈ ds, method ∈ d.methods := by
  induction ds generalizing c with
  | nil => cases h
  | cons d older ih =>
    have holder {p : ClassId} (h : methodNamed? older p name = some method) :
        ∃ e ∈ d :: older, method ∈ e.methods := by
      obtain ⟨e, he, hmethod⟩ := ih h
      exact ⟨e, List.mem_cons_of_mem _ he, hmethod⟩
    rw [methodNamed?] at h
    split at h
    · split at h
      · rename_i hown
        cases h
        exact ⟨d, List.mem_cons_self, List.mem_of_find?_eq_some hown⟩
      · exact holder h
      · cases h
    · exact holder h

namespace Heap

/-- The nearest method of a name. -/
def getMethod? (h : Heap) (c : ClassId) (name : String) : Option Method :=
  methodNamed? h.classes c name

/-- The nearest method of a name, if it takes this many arguments. -/
def findMethod? (h : Heap) (c : ClassId) (name : String) (arity : Nat) : Option Method :=
  (h.getMethod? c name).filter fun m => m.arity = arity

theorem exists_of_findMethod? {h : Heap} {c : ClassId} {name : String} {arity : Nat} {method : Method}
    (hm : h.findMethod? c name arity = some method) : ∃ d ∈ h.classes, method ∈ d.methods :=
  exists_of_methodNamed? (Option.filter_eq_some_iff.1 hm).1

/-- The class of an identity. -/
def class? (h : Heap) (c : ClassId) : Option ClassDecl := h.classes.find? fun d => d.id = c

/-- Adds classes, each behind those that it is built on. -/
def addClasses (h : Heap) (ds : List ClassDecl) : Heap :=
  { h with classes := ds.reverse ++ h.classes }

/-! ### Objects -/

/-- The class of an object. -/
def classOf (h : Heap) (o : ObjId) : ClassId := ((h.objects[o]?).map Object.cls).getD default

/-- Whether an object's class has a method of this name that takes this many arguments. -/
def hasMethod (h : Heap) (o : ObjId) (name : String) (arity : Nat) : Bool :=
  (h.findMethod? (h.classOf o) name arity).isSome

/-- The fields of an object. -/
def fields (h : Heap) (o : ObjId) : Scope := ((h.objects[o]?).map Object.fields).getD {}

/-- The value of a field. -/
def field? (h : Heap) (o : ObjId) (name : String) : Option Value := (h.fields o).get? name

/-- Sets a field of an object. -/
def setField (h : Heap) (o : ObjId) (name : String) (v : Value) : Heap :=
  { h with objects := h.objects.modify o fun ob => { ob with fields := ob.fields.set name v } }

/-- The number of the object that is made next. -/
def fresh (h : Heap) : ObjId := h.objects.size

/-- A new object. Its fields hold a reference to itself, which does not own it. -/
def newObject (c : ClassId) (o : ObjId) : Object := ⟨c, ({} : Scope).set selfName (.obj (.shared o))⟩

/-- Makes a new object, which gets the number `fresh`. -/
def allocate (h : Heap) (c : ClassId) : Heap :=
  { h with objects := h.objects.push (newObject c h.fresh) }

@[simp] theorem classOf_allocate_self (h : Heap) (c : ClassId) :
    (h.allocate c).classOf h.fresh = c := by
  simp [classOf, allocate, fresh, newObject]

theorem classOf_allocate_of_lt (h : Heap) (c : ClassId) {o : ObjId} (ho : o < h.fresh) :
    (h.allocate c).classOf o = h.classOf o := by
  have hne : o ≠ h.objects.size := Nat.ne_of_lt ho
  simp [classOf, allocate, Array.getElem?_push, hne]

theorem fields_of_le (h : Heap) {o : ObjId} (ho : h.fresh ≤ o) : h.fields o = {} := by
  rw [fields, Array.getElem?_eq_none ho]
  rfl

theorem fields_allocate_self (h : Heap) (c : ClassId) :
    (h.allocate c).fields h.fresh = ({} : Scope).set selfName (.obj (.shared h.fresh)) := by
  simp [fields, allocate, fresh, newObject]

theorem fields_allocate_of_ne (h : Heap) (c : ClassId) {o : ObjId} (ho : o ≠ h.fresh) :
    (h.allocate c).fields o = h.fields o := by
  unfold fresh at ho
  simp [fields, allocate, Array.getElem?_push, ho]

theorem fields_setField_of_ne (h : Heap) {o p : ObjId} (x : String) (v : Value) (hp : p ≠ o) :
    (h.setField o x v).fields p = h.fields p := by
  simp only [fields, setField, Array.getElem?_modify, if_neg hp.symm]

theorem fields_setField_self (h : Heap) {o : ObjId} (x : String) (v : Value) (ho : o < h.fresh) :
    (h.setField o x v).fields o = (h.fields o).set x v := by
  simp only [fields, setField, Array.getElem?_modify, if_true, Array.getElem?_eq_getElem ho]
  rfl

@[simp] theorem fresh_setField (h : Heap) (o : ObjId) (x : String) (v : Value) :
    (h.setField o x v).fresh = h.fresh := by
  simp only [fresh, setField, Array.size_modify]

@[simp] theorem fresh_allocate (h : Heap) (c : ClassId) : (h.allocate c).fresh = h.fresh + 1 := by
  simp only [fresh, allocate, Array.size_push]

theorem classOf_setField (h : Heap) (o p : ObjId) (x : String) (v : Value) :
    (h.setField o x v).classOf p = h.classOf p := by
  simp only [classOf, setField, Array.getElem?_modify]
  split
  · cases h.objects[p]? <;> simp
  · rfl

end Heap

end ClassScript

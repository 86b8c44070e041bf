import ClassScript.Proofs.Handles
import ClassScript.Proofs.RunsUntil
import ClassScript.Run.Program
import Mathlib.Tactic.ByContra

/-!
# What objects call themselves

A new object is bound in its own fields under the name `self`.  Fields are never taken away, so every object has
a field of this name for good (`Machine.NamesSelf`); but a program may store another value there.  Main statement:
up to the first such assignment the field of every living object leads back to the object (`selfBound_until`).
-/

namespace ClassScript

namespace Heap

/-- Every object has a field named `self`. -/
def NamesSelf (h : Heap) : Prop := ∀ o < h.fresh, ∃ v, h.field? o selfName = some v

/-- The field `self` of every object is a reference to the object. -/
def RefersToSelf (h : Heap) : Prop := ∀ o < h.fresh, ∃ a, h.field? o selfName = some (.obj a) ∧ a.id = o

theorem field?_allocate_of_lt (h : Heap) (c : ClassId) {o : ObjId} (ho : o < h.fresh) (f : String) :
    (h.allocate c).field? o f = h.field? o f := by
  rw [field?, field?, fields_allocate_of_ne h c (Nat.ne_of_lt ho)]

theorem field?_allocate_self (h : Heap) (c : ClassId) :
    (h.allocate c).field? h.fresh selfName = some (.obj (.shared h.fresh)) := by
  rw [field?, fields_allocate_self, Scope.get?_set_self]

theorem field?_setField_self (h : Heap) {o : ObjId} (ho : o < h.fresh) (f : String) (v : Value) :
    (h.setField o f v).field? o f = some v := by
  rw [field?, fields_setField_self h f v ho, Scope.get?_set_self]

/-- A field that is set leaves all others as they were. -/
theorem field?_setField_of_ne (h : Heap) {o p : ObjId} {f g : String} (v : Value) (hne : p = o → g ≠ f) :
    (h.setField o f v).field? p g = h.field? p g := by
  by_cases hp : p = o
  · subst hp
    by_cases ho : p < h.fresh
    · rw [field?, fields_setField_self h f v ho, Scope.get?_set_of_ne _ v (hne rfl), field?]
    · have ho' : (h.setField p f v).fresh ≤ p := by
        rw [fresh_setField]
        exact Nat.le_of_not_lt ho
      rw [field?, field?, fields_of_le _ ho', fields_of_le h (Nat.le_of_not_lt ho)]
  · rw [field?, field?, fields_setField_of_ne h f v hp]

/-- An object is made with its field `self`, and no field is ever taken away. -/
theorem namesSelf_invariant : HeapInvariant (fun _ _ _ _ => False) NamesSelf where
  create {h} cls hm := by
    intro o ho
    rcases Nat.lt_or_eq_of_le (Nat.le_of_lt_succ (h.fresh_allocate cls ▸ ho)) with hlt | rfl
    · rw [field?_allocate_of_lt h cls hlt]
      exact hm o hlt
    · exact ⟨_, field?_allocate_self h cls⟩
  setField {h o f v} hm _ := by
    intro p hp
    rw [fresh_setField] at hp
    by_cases hset : p = o ∧ selfName = f
    · obtain ⟨rfl, rfl⟩ := hset
      exact ⟨v, field?_setField_self h hp selfName v⟩
    · rw [field?_setField_of_ne h v fun hpo hf => hset ⟨hpo, hf⟩]
      exact hm p hp

/-- A value other than the object itself in the field `self` of an object. -/
def Misnames (_ : Heap) (o : ObjId) (field : String) (v : Value) : Prop :=
  field = selfName ∧ ∀ a, v = .obj a → a.id ≠ o

/-- The field `self` is a reference to its object as long as nothing else is stored there. -/
theorem refersToSelf_invariant : HeapInvariant Misnames RefersToSelf where
  create {h} cls hm := by
    intro o ho
    rcases Nat.lt_or_eq_of_le (Nat.le_of_lt_succ (h.fresh_allocate cls ▸ ho)) with hlt | rfl
    · rw [field?_allocate_of_lt h cls hlt]
      exact hm o hlt
    · exact ⟨_, field?_allocate_self h cls, rfl⟩
  setField {h o f v} hm hno := by
    intro p hp
    rw [fresh_setField] at hp
    by_cases hset : p = o ∧ selfName = f
    · obtain ⟨rfl, rfl⟩ := hset
      obtain ⟨a, rfl, ha⟩ : ∃ a, v = .obj a ∧ a.id = p := by
        by_contra hv
        exact hno ⟨rfl, fun a hva ha => hv ⟨a, hva, ha⟩⟩
      exact ⟨a, field?_setField_self h hp selfName _, ha⟩
    · rw [field?_setField_of_ne h v fun hpo hf => hset ⟨hpo, hf⟩]
      exact hm p hp

end Heap

namespace Machine

/-- The field `self` of every living object leads back to the object. -/
def SelfBound (m : Machine) : Prop :=
  ∀ o < m.heap.fresh, m.live (.object o) = true →
    ∃ a, m.heap.field? o selfName = some (.obj a) ∧ m.resolve a = some o

theorem selfBound_of_refersToSelf {m : Machine} (h : m.heap.RefersToSelf) : m.SelfBound := by
  intro o ho hlive
  obtain ⟨a, hfield, rfl⟩ := h o ho
  exact ⟨a, hfield, resolve_of_live hlive⟩

end Machine

open Exec

/-- Every run from an empty scope leaves each object a field named `self` for good.  Up to the first value other
than the object itself that is stored under this name, the field of every living object leads back to the
object. -/
theorem selfBound_until (root : Node) (sink : Sink) (limit : Option Nat) (fuel : Nat) :
    let start := Machine.load { sink := sink } root
    Throughout (.always (·.heap.NamesSelf)) limit fuel root start ∧
      ThroughoutUntil (fieldWatch Heap.Misnames limit) Machine.SelfBound limit fuel root start := by
  intro start
  have hnone : ∀ o, ¬ o < start.heap.fresh := fun o => Nat.not_lt_zero o
  constructor
  · exact Heap.namesSelf_invariant.throughout (fun _ hm => hm) (fun o ho => absurd ho (hnone o)) limit fuel root
  · refine Heap.refersToSelf_invariant.throughoutUntil (fun _ => Machine.selfBound_of_refersToSelf) ?_ limit fuel root
    exact fun o ho => absurd ho (hnone o)

/-- Nothing keeps a program from such an assignment: behind `a.self = 1` the object `a` is alive, and its field
`self` is a number. -/
theorem selfBound_lost :
    let tokens : List Token := ([.keyword .kClass, .name "A", .char ':', .newline, .indent, .keyword .kDef,
      .name "f", .char '(', .char ')', .char ':', .newline, .indent, .keyword .kReturn, .newline, .dedent,
      .dedent, .name "a", .char '=', .name "A", .char '(', .char ')', .newline, .name "a", .char '.',
      .name "self", .char '=', .number 1, .newline, .eof] : List TokenKind).map fun k => ⟨k, {}⟩
    ∃ root, Node.ofTokens 0 tokens = .ok root ∧
      let m := (exec none 3 root (Machine.load {} root)).2
      m.live (.object 0) = true ∧ m.heap.field? 0 selfName = some (.int 1) ∧ ¬ m.SelfBound := by
  intro tokens
  let root : Node := .block {} [
    .classDef {} ⟨⟨0, "A"⟩, none, [⟨"f", [], .methodBody {} (.block {} [.ret {} (.literal {} .none)])⟩]⟩,
    .assign {} "a" (.new {} ⟨0, "A"⟩ []), .setField {} ["a"] "self" (.literal {} (.int 1))]
  have h : Node.ofTokens 0 tokens = .ok root := rfl
  refine ⟨root, h, ?_⟩
  intro m
  obtain ⟨hlive, hfield, hfresh⟩ :
      m.live (.object 0) = true ∧ m.heap.field? 0 selfName = some (.int 1) ∧ m.heap.fresh = 1 := by
    dsimp only [m, root]
    decide +kernel
  refine ⟨hlive, hfield, fun hbound => ?_⟩
  obtain ⟨a, ha, -⟩ := hbound 0 (hfresh ▸ Nat.one_pos) hlive
  rw [hfield] at ha
  cases ha

end ClassScript

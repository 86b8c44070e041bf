import ClassScript.Proofs.Calls
import ClassScript.Proofs.Handles
import ClassScript.Proofs.Invariant

/-!
# Confinement

A node has its effect on the objects that its scope leads to, and on those that are made meanwhile: no
other object is changed, and neither what the node gives nor its scope behind it leads to any other
(`exec_confined`).  So a call is confined to what its receiver and its arguments lead to.

Where a run starts, an object is inside if it may be reached or is yet to be made, and gone if it is
dead.  The invariant (`Machine.Confined`) tells where handles may lead, from the scope and from the fields
of what is inside.  It includes that what is gone has no owner but what is gone, since a handle that does
not own its object might lead to it again otherwise.
-/

namespace ClassScript

/-! ### Bindings -/

namespace Scope

theorem mem_setAll {s : Scope} {bs : List (String × Value)} {x : String} {v : Value}
    (h : (x, v) ∈ (s.setAll bs).entries) : (x, v) ∈ s.entries ∨ ∃ b ∈ bs, b.2 = v := by
  induction bs generalizing s with
  | nil => exact .inl h
  | cons b bs ih =>
    rcases ih h with h | ⟨b', hb, hv⟩
    · rcases mem_rebind h with ⟨-, hv⟩ | h
      · exact .inr ⟨b, List.mem_cons_self, hv.symm⟩
      · exact .inl h
    · exact .inr ⟨b', List.mem_cons_of_mem _ hb, hv⟩

/-- The frame of a call holds its receiver and its arguments. -/
theorem mem_frame {o : ObjId} {params : List String} {args : List Value} {x : String} {v : Value}
    (h : (x, v) ∈ (frame o params args).entries) : v = .obj (.shared o) ∨ v ∈ args := by
  rcases mem_setAll h with h | ⟨b, hb, rfl⟩
  · rcases mem_rebind h with ⟨-, hv⟩ | h
    · exact .inl hv
    · exact absurd h List.not_mem_nil
  · exact .inr (List.of_mem_zip hb).2

/-- What a scope owns, a binding of it owns. -/
theorem mem_owned_object {s : Scope} {o : ObjId} :
    .object o ∈ s.owned ↔ ∃ x, (x, .obj (.owned o)) ∈ s.entries := by
  constructor
  · intro h
    obtain ⟨⟨x, v⟩, hb, ho⟩ := List.mem_flatMap.1 h
    refine ⟨x, ?_⟩
    match v, ho with
    | .obj (.owned p), ho =>
      cases List.mem_singleton.1 ho
      exact hb
    | .cls c, ho => cases List.mem_singleton.1 ho
  · rintro ⟨x, h⟩
    exact List.mem_flatMap.2 ⟨_, h, List.mem_singleton_self _⟩

theorem get?_set_eq_some {s : Scope} {x y : String} {v w : Value} (h : (s.set x v).get? y = some w) :
    w = v ∨ s.get? y = some w := by
  by_cases hy : y = x
  · subst hy
    rw [get?_set_self] at h
    exact .inl (Option.some.inj h).symm
  · rw [get?_set_of_ne s v hy] at h
    exact .inr h

end Scope

namespace Heap

variable {h : Heap}

/-- An object on the heap stands there under its own number, and nothing else does. -/
theorem slot?_eq_some_iff {i : Nat} (hi : i < h.fresh) {e : Entity} :
    h.slot? e = some i ↔ e = .object i := by
  cases e with
  | object o =>
    constructor
    · intro he
      obtain ⟨-, rfl⟩ : o < h.objects.size ∧ o = i := by simpa [slot?] using he
      rfl
    · rintro ⟨⟩
      exact if_pos hi
  | cls c =>
    refine iff_of_false (fun he => ?_) Entity.noConfusion
    obtain ⟨j, -, rfl⟩ := Option.map_eq_some_iff.1 he
    exact absurd hi (Nat.not_lt.2 (Nat.le_add_right _ j))

/-- Only objects own objects, by their fields. -/
theorem mem_slotsAt_iff {i j : Nat} (hi : i < h.fresh) :
    i ∈ h.slotsAt j ↔ .object i ∈ (h.fields j).owned := by
  have hslot : i ∈ h.slotsAt j ↔ .object i ∈ h.ownedAt j := by
    constructor
    · intro hmem
      obtain ⟨e, he, hs⟩ := List.mem_filterMap.1 hmem
      exact (slot?_eq_some_iff hi).1 hs ▸ he
    · exact fun he => List.mem_filterMap.2 ⟨_, he, (slot?_eq_some_iff hi).2 rfl⟩
  rw [hslot, ownedAt]
  by_cases hj : j < h.fresh
  · have hget : h.objects[j]? = some h.objects[j] := Array.getElem?_eq_getElem hj
    have hfields : h.fields j = h.objects[j].fields := by
      rw [fields, hget]
      rfl
    rw [hget, hfields]
    show Entity.object i ∈ .cls h.objects[j].cls :: h.objects[j].fields.owned ↔ _
    simp
  · have hget : h.objects[j]? = none := Array.getElem?_eq_none (Nat.not_lt.1 hj)
    rw [hget, fields_of_le h (Nat.not_lt.1 hj)]
    refine iff_of_false (fun hmem => ?_) List.not_mem_nil
    cases hc : h.classes[j - h.objects.size]? with
    | none =>
      rw [hc] at hmem
      exact List.not_mem_nil hmem
    | some d =>
      rw [hc] at hmem
      obtain ⟨c, -, hc⟩ := List.mem_map.1 (show Entity.object i ∈ ClassOf.owned d from hmem)
      cases hc

end Heap

namespace Machine

/-- What a handle leads to on the heap. -/
def Finds (m : Machine) (a : Handle) (o : ObjId) : Prop := m.resolve a = some o ∧ o < m.heap.fresh

/-- An object that values as `S` says lead to, by handles that own their objects or not. -/
inductive Reaches (m : Machine) (S : Value → Prop) : ObjId → Prop
  | start {a : Handle} {o : ObjId} (h : S (.obj a)) (ho : m.Finds a o) : Reaches m S o
  | field {p : ObjId} {x : String} {a : Handle} {o : ObjId} (hp : Reaches m S p)
    (hx : m.heap.field? p x = some (.obj a)) (ho : m.Finds a o) : Reaches m S o

theorem Reaches.lt {m : Machine} {S : Value → Prop} {o : ObjId} (h : m.Reaches S o) :
    o < m.heap.fresh := by
  cases h with
  | start _ ho => exact ho.2
  | field _ _ ho => exact ho.2

/-- An object that was made between two machines. -/
def Made (m m' : Machine) (o : ObjId) : Prop := m.heap.fresh ≤ o ∧ o < m'.heap.fresh

/-- A value that a name is bound to. -/
def Binds (m : Machine) (v : Value) : Prop := ∃ x, m.scope.get? x = some v

/-- An object that is dead. -/
def Gone (m : Machine) (o : ObjId) : Prop := o < m.heap.fresh ∧ m.live (.object o) = false

/-- An object that values as `S` says lead to, or that is yet to be made. -/
def Inside (m : Machine) (S : Value → Prop) (o : ObjId) : Prop := m.Reaches S o ∨ m.heap.fresh ≤ o

/-- A handle to what is inside, or one that does not own what is gone. -/
def Leaves (m : Machine) (S : Value → Prop) (a : Handle) : Prop :=
  m.Inside S a.id ∨ m.Gone a.id ∧ a = .shared a.id

/-- A value in use: one that does not lead outside, and owns its object if it is one. -/
def Within (m : Machine) (S : Value → Prop) (v : Value) : Prop :=
  ∀ a, v = .obj a → a = .owned a.id ∧ m.Inside S a.id

theorem gone_iff_lost {m : Machine} {o : ObjId} (ho : o < m.heap.fresh) :
    m.Gone o ↔
      Release.Lost m.heap.slotsAt m.heap.population (m.roots.filterMap m.heap.slot?) o := by
  have h := live_iff_not_lost (m := m) ((Heap.slot?_eq_some_iff ho).2 rfl)
  rw [Gone, ← Bool.not_eq_true, h, Classical.not_not]
  exact and_iff_right ho

/-- The heap of `m` is one of a run that started from `b` with values as `S` says in use. -/
structure Apart (b : Machine) (S : Value → Prop) (m : Machine) : Prop where
  fields : ∀ p x a, b.Inside S p → m.heap.field? p x = some (.obj a) → b.Leaves S a
  frame : ∀ p, ¬ b.Inside S p → m.heap.fields p = b.heap.fields p
  fresh : b.heap.fresh ≤ m.heap.fresh
  roots : ∀ o, .object o ∈ m.roots → ¬ b.Gone o
  owners : ∀ p o, ¬ b.Gone p → .object o ∈ (m.heap.fields p).owned → ¬ b.Gone o

/-- `m` is a machine of a run that started from `b` with values as `S` says in use. -/
structure Confined (b : Machine) (S : Value → Prop) (m : Machine) : Prop extends Apart b S m where
  scope : ∀ x a, m.scope.get? x = some (.obj a) → b.Leaves S a

variable {b m m' : Machine} {S : Value → Prop}

theorem not_gone_of_live {o : ObjId} (h : m.live (.object o) = true) : ¬ m.Gone o := by
  rintro ⟨-, hdead⟩
  rw [h] at hdead
  cases hdead

/-- What an object that is not dead owns is not dead. -/
theorem not_gone_of_owned {p o : ObjId} (hp : ¬ m.Gone p) (ho : .object o ∈ (m.heap.fields p).owned) :
    ¬ m.Gone o := by
  rintro ⟨hlt, hdead⟩
  have hp' : p < m.heap.fresh := by
    apply Nat.lt_of_not_le
    intro hge
    rw [Heap.fields_of_le m.heap hge] at ho
    exact List.not_mem_nil ho
  rw [gone_iff_lost hp'] at hp
  exact Heap.not_lost_of_owned hp' hlt ho hp ((gone_iff_lost hlt).1 ⟨hlt, hdead⟩)

section

variable (hS : ∀ o, S (.obj (.owned o)) → b.live (.object o) = true)
include hS

theorem Reaches.not_gone {o : ObjId} (h : b.Reaches S o) : ¬ b.Gone o := by
  induction h with
  | start h ho =>
    rcases resolve_eq_some ho.1 with rfl | ⟨-, hlive⟩
    · exact not_gone_of_live (hS _ h)
    · exact not_gone_of_live hlive
  | @field p x a o _ hx ho ih =>
    rcases resolve_eq_some ho.1 with rfl | ⟨-, hlive⟩
    · exact not_gone_of_owned ih (Scope.mem_owned_object.2 ⟨x, Scope.mem_of_get? hx⟩)
    · exact not_gone_of_live hlive

theorem Inside.not_gone {o : ObjId} (h : b.Inside S o) : ¬ b.Gone o := by
  rcases h with h | h
  · exact h.not_gone hS
  · exact fun hgone => Nat.not_le.2 hgone.1 h

namespace Apart

variable (h : b.Apart S m)
include h

/-- What was dead when a run started is dead ever after. -/
theorem gone {o : ObjId} (ho : b.Gone o) : m.Gone o := by
  suffices hlost : ∀ i, Release.Lost b.heap.slotsAt b.heap.population (b.roots.filterMap b.heap.slot?) i →
      i < b.heap.fresh →
        Release.Lost m.heap.slotsAt m.heap.population (m.roots.filterMap m.heap.slot?) i from
    (gone_iff_lost (Nat.lt_of_lt_of_le ho.1 h.fresh)).2 (hlost o ((gone_iff_lost ho.1).1 ho) ho.1)
  intro i hi
  induction hi with
  | @intro i root owners ih =>
    intro hlt
    have hlt' : i < m.heap.fresh := Nat.lt_of_lt_of_le hlt h.fresh
    have hgone : b.Gone i := (gone_iff_lost hlt).2 (.intro root owners)
    refine .intro (fun hroot => ?_) fun j _ hown => ?_
    · obtain ⟨e, he, hslot⟩ := List.mem_filterMap.1 hroot
      obtain rfl := (Heap.slot?_eq_some_iff hlt').1 hslot
      exact h.roots i he hgone
    · rw [Heap.mem_slotsAt_iff hlt'] at hown
      -- an owner of what is gone is gone itself, so it has the fields it had
      have hj : b.Gone j := Classical.byContradiction fun hn => h.owners j i hn hown hgone
      rw [h.frame j fun hin => hin.not_gone hS hj] at hown
      refine ih j (Nat.lt_add_right _ hj.1) ?_ hj.1
      exact (Heap.mem_slotsAt_iff hlt).2 hown

/-- A handle that leads nowhere outside leads to what is inside, if anywhere. -/
theorem inside_of_resolve {a : Handle} {o : ObjId} (ha : b.Leaves S a) (ho : m.resolve a = some o) :
    b.Inside S o := by
  rcases resolve_eq_some ho with rfl | ⟨rfl, hlive⟩
  · rcases ha with ha | ⟨-, ha⟩
    · exact ha
    · cases ha
  · rcases ha with ha | ⟨ha, -⟩
    · exact ha
    · exact absurd (h.gone hS ha) (not_gone_of_live hlive)

theorem leaves_of_follow {v w : Value} {seen xs : List String} (hv : ∀ a, v = .obj a → b.Leaves S a)
    (hw : m.follow v seen xs = .ok w) : ∀ a, w = .obj a → b.Leaves S a := by
  induction xs generalizing v seen with
  | nil =>
    cases hw
    exact hv
  | cons x xs ih =>
    cases v with
    | obj c =>
      rw [follow] at hw
      cases hr : m.resolve c with
      | none =>
        rw [hr] at hw
        cases hw
      | some o =>
        rw [hr, Option.bind_some] at hw
        cases hf : m.heap.field? o x with
        | none =>
          rw [hf] at hw
          cases hw
        | some u =>
          rw [hf] at hw
          refine ih ?_ hw
          rintro a rfl
          exact h.fields o x a (h.inside_of_resolve hS (hv c rfl) hr) hf
    | _ => cases hw

/-- What handles lead to that lead nowhere outside is inside. -/
theorem inside_of_reaches {T : Value → Prop} (hT : ∀ a, T (.obj a) → b.Leaves S a) {o : ObjId}
    (ho : m.Reaches T o) : b.Inside S o := by
  induction ho with
  | start ha ho => exact h.inside_of_resolve hS (hT _ ha) ho.1
  | field _ hx ho ih => exact h.inside_of_resolve hS (h.fields _ _ _ ih hx) ho.1

end Apart

/-- What is read under a path is a value in use. -/
theorem Confined.within_of_read (h : b.Confined S m) {path : List String} {v : Value}
    (hv : m.read path = .ok v) : b.Within S v := by
  cases path with
  | nil => cases hv
  | cons x xs =>
    rw [read] at hv
    cases hx : m.scope.get? x with
    | none =>
      rw [hx] at hv
      cases hv
    | some u =>
      rw [hx] at hv
      dsimp only at hv
      cases hf : m.follow u [x] xs with
      | error name =>
        rw [hf] at hv
        cases hv
      | ok w =>
        rw [hf] at hv
        dsimp only at hv
        have hw : ∀ a, w = .obj a → b.Leaves S a := by
          refine h.leaves_of_follow hS ?_ hf
          rintro a rfl
          exact h.scope x a hx
        rintro a rfl
        cases w with
        | obj a =>
          cases a with
          | owned o =>
            cases hv
            exact ⟨rfl, h.inside_of_resolve hS (hw _ rfl) rfl⟩
          | shared o =>
            change (if m.live (.object o) = true then _ else _) = _ at hv
            split at hv
            · rename_i hlive
              cases hv
              exact ⟨rfl, h.inside_of_resolve hS (hw _ rfl) (resolve_of_live hlive)⟩
            · cases hv
        | _ => cases hv

end

/-! ### The invariant -/

theorem Within.inside {o : ObjId} (h : b.Within S (.obj (.owned o))) : b.Inside S o := (h _ rfl).2

theorem Within.leaves {a : Handle} (h : b.Within S (.obj a)) : b.Leaves S a := .inl (h a rfl).2

theorem Within.owned {v : Value} (h : b.Within S v) {o : ObjId} (ho : .object o ∈ v.owned) :
    b.Inside S o := by
  match v, h, ho with
  | .obj (.owned p), h, ho =>
    cases List.mem_singleton.1 ho
    exact h.inside
  | .cls c, _, ho => cases List.mem_singleton.1 ho

/-- The frame of a call on something inside leads nowhere outside. -/
theorem leaves_frame {o : ObjId} {params : List String} {args : List Value}
    (ho : b.Within S (.obj (.owned o))) (hargs : ∀ v ∈ args, b.Within S v) :
    ∀ x a, (Scope.frame o params args).get? x = some (.obj a) → b.Leaves S a := by
  intro x a hx
  rcases Scope.mem_frame (Scope.mem_of_get? hx) with heq | hmem
  · cases heq
    exact .inl ho.inside
  · exact (hargs _ hmem).leaves

/-- To be confined is an invariant of a run. -/
theorem Confined.invariant (hS : ∀ o, S (.obj (.owned o)) → b.live (.object o) = true) :
    Invariant (b.Confined S) (b.Within S) fun _ => True where
  plain h _ a ha := absurd ha (h a)
  hold hm hv := by
    refine ⟨⟨hm.fields, hm.frame, hm.fresh, fun o ho => ?_, hm.owners⟩, hm.scope⟩
    rcases mem_roots.1 ho with ⟨c, -, hc⟩ | ⟨u, hu, hown⟩ | hroot
    · cases hc
    · rcases List.mem_cons.1 hu with rfl | hu
      · exact (hv.owned hown).not_gone hS
      · exact hm.roots o (mem_roots.2 (.inr (.inl ⟨u, hu, hown⟩)))
    · exact hm.roots o (mem_roots.2 (.inr (.inr hroot)))
  unhold hm hm' := by
    refine ⟨⟨hm'.fields, hm'.frame, hm'.fresh, fun o ho => ?_, hm'.owners⟩, hm'.scope⟩
    rcases mem_roots.1 ho with ⟨c, -, hc⟩ | ho | ho
    · cases hc
    · exact hm.roots o (mem_roots.2 (.inr (.inl ho)))
    · exact hm'.roots o (mem_roots.2 (.inr (.inr ho)))
  enter params hm ho hargs := by
    refine ⟨⟨hm.fields, hm.frame, hm.fresh, fun q hq => ?_, hm.owners⟩, leaves_frame ho hargs⟩
    rcases mem_roots.1 hq with ⟨c, -, hc⟩ | hq | hq | ⟨s, hs, hq⟩
    · cases hc
    · exact hm.roots q (mem_roots.2 (.inr (.inl hq)))
    · obtain ⟨x, hx⟩ := Scope.mem_owned_object.1 hq
      rcases Scope.mem_frame hx with heq | hmem
      · cases heq
      · exact (hargs _ hmem).inside.not_gone hS
    · rcases List.mem_cons.1 hs with rfl | hs
      · exact hm.roots q (mem_roots.2 (.inr (.inr (.inl hq))))
      · exact hm.roots q (mem_roots.2 (.inr (.inr (.inr ⟨s, hs, hq⟩))))
  leave hm hm' := by
    refine ⟨⟨hm'.fields, hm'.frame, hm'.fresh, fun o ho => ?_, hm'.owners⟩, hm.scope⟩
    rcases mem_roots.1 ho with ⟨c, -, hc⟩ | ho | ho
    · cases hc
    · exact hm'.roots o (mem_roots.2 (.inr (.inl ho)))
    · exact hm.roots o (mem_roots.2 (.inr (.inr ho)))
  trace t hm := ⟨⟨hm.fields, hm.frame, hm.fresh, hm.roots, hm.owners⟩, hm.scope⟩
  sink s hm := ⟨⟨hm.fields, hm.frame, hm.fresh, hm.roots, hm.owners⟩, hm.scope⟩
  create {m} cls hm _ := by
    have hin : b.Inside S m.heap.fresh := .inr hm.fresh
    refine ⟨⟨⟨fun p x a hp hx => ?_, fun p hp => ?_, ?_, hm.roots, fun p o hp ho => ?_⟩, hm.scope⟩, ?_⟩
    · by_cases hne : p = m.heap.fresh
      · subst hne
        rw [Heap.field?, Heap.fields_allocate_self] at hx
        rcases Scope.get?_set_eq_some hx with heq | hx
        · cases heq
          exact .inl hin
        · cases hx
      · rw [Heap.field?, Heap.fields_allocate_of_ne _ _ hne] at hx
        exact hm.fields p x a hp hx
    · have hne : p ≠ m.heap.fresh := fun heq => hp (heq ▸ hin)
      rw [Heap.fields_allocate_of_ne _ _ hne, hm.frame p hp]
    · exact Nat.le_trans hm.fresh (by simp)
    · by_cases hne : p = m.heap.fresh
      · subst hne
        rw [Heap.fields_allocate_self] at ho
        obtain ⟨x, hx⟩ := Scope.mem_owned_object.1 ho
        rcases Scope.mem_rebind hx with ⟨-, heq⟩ | hx
        · cases heq
        · exact absurd hx List.not_mem_nil
      · rw [Heap.fields_allocate_of_ne _ _ hne] at ho
        exact hm.owners p o hp ho
    · rintro a ⟨⟩
      exact ⟨rfl, hin⟩
  setName {m} x {v} hm hv := by
    refine ⟨⟨hm.fields, hm.frame, hm.fresh, fun o ho => ?_, hm.owners⟩, fun y a hy => ?_⟩
    · rcases mem_roots.1 ho with ⟨c, -, hc⟩ | ho | ho | ho
      · cases hc
      · exact hm.roots o (mem_roots.2 (.inr (.inl ho)))
      · obtain ⟨y, hy⟩ := Scope.mem_owned_object.1 ho
        rcases Scope.mem_rebind hy with ⟨-, rfl⟩ | hy
        · exact hv.inside.not_gone hS
        · exact hm.roots o (mem_roots.2 (.inr (.inr (.inl (Scope.mem_owned_object.2 ⟨y, hy⟩)))))
      · exact hm.roots o (mem_roots.2 (.inr (.inr (.inr ho))))
    · rcases Scope.get?_set_eq_some hy with rfl | hy
      · exact hv.leaves
      · exact hm.scope y a hy
  setField {m o} f {v} hm ho hv := by
    have hcases : ∀ p, p = o ∧ o < m.heap.fresh ∨
        (m.heap.setField o f v).fields p = m.heap.fields p := by
      intro p
      by_cases hp : p = o
      · subst hp
        by_cases hlt : p < m.heap.fresh
        · exact .inl ⟨rfl, hlt⟩
        · have hle := Nat.le_of_not_lt hlt
          rw [Heap.fields_of_le _ hle, Heap.fields_of_le _ (by rwa [Heap.fresh_setField])]
          exact .inr rfl
      · exact .inr (Heap.fields_setField_of_ne _ _ _ hp)
    refine ⟨⟨fun p x a hp hx => ?_, fun p hp => ?_, ?_, hm.roots, fun p q hp hq => ?_⟩, hm.scope⟩
    · rw [Heap.field?] at hx
      rcases hcases p with ⟨rfl, hlt⟩ | heq
      · rw [Heap.fields_setField_self _ _ _ hlt] at hx
        rcases Scope.get?_set_eq_some hx with rfl | hx
        · exact hv.leaves
        · exact hm.fields p x a hp hx
      · rw [heq] at hx
        exact hm.fields p x a hp hx
    · have hne : p ≠ o := fun heq => hp (heq ▸ ho.inside)
      rw [Heap.fields_setField_of_ne _ _ _ hne, hm.frame p hp]
    · exact Nat.le_trans hm.fresh (by simp)
    · rcases hcases p with ⟨rfl, hlt⟩ | heq
      · rw [Heap.fields_setField_self _ _ _ hlt] at hq
        obtain ⟨x, hx⟩ := Scope.mem_owned_object.1 hq
        rcases Scope.mem_rebind hx with ⟨-, rfl⟩ | hx
        · exact hv.inside.not_gone hS
        · exact hm.owners p q hp (Scope.mem_owned_object.2 ⟨x, hx⟩)
      · rw [heq] at hq
        exact hm.owners p q hp hq
  resolve {m a o} hm ha ho := by
    obtain ⟨howned, hin⟩ := ha a rfl
    rw [howned] at ho
    cases ho
    rintro c ⟨⟩
    exact ⟨rfl, hin⟩
  read hm hv := hm.within_of_read hS hv
  error _ := trivial
  cls _ := nofun
  parts _ _ := trivial
  body _ _ := ⟨trivial, .inr fun _ _ => trivial⟩

/-! ### Starts of runs -/

/-- Nothing that is a root is dead. -/
theorem not_gone_of_root {o : ObjId} (h : .object o ∈ m.roots) : ¬ m.Gone o := by
  intro hgone
  obtain ⟨root, -⟩ := (gone_iff_lost hgone.1).1 hgone
  exact root (List.mem_filterMap.2 ⟨_, h, (Heap.slot?_eq_some_iff hgone.1).2 rfl⟩)

/-- A handle leads nowhere outside if what it leads to on the heap is reached. -/
theorem leaves_of_finds {a : Handle} (h : ∀ o, b.Finds a o → b.Reaches S o) : b.Leaves S a := by
  by_cases hlt : a.id < b.heap.fresh
  · cases a with
    | owned o => exact .inl (.inl (h o ⟨rfl, hlt⟩))
    | shared o =>
      cases hlive : b.live (.object o) with
      | true => exact .inl (.inl (h o ⟨resolve_of_live hlive, hlt⟩))
      | false => exact .inr ⟨⟨hlt, hlive⟩, rfl⟩
  · exact .inl (.inr (Nat.le_of_not_lt hlt))

/-- A machine with the heap of a start and no more roots is one of a run from there. -/
theorem Apart.start (heap : m.heap = b.heap) (roots : ∀ o, .object o ∈ m.roots → .object o ∈ b.roots) :
    b.Apart S m where
  fields p x a hp hx := by
    rw [heap] at hx
    refine leaves_of_finds fun o ho => ?_
    rcases hp with hp | hge
    · exact hp.field hx ho
    · rw [Heap.field?, Heap.fields_of_le _ hge] at hx
      cases hx
  frame p _ := by rw [heap]
  fresh := Nat.le_of_eq (congrArg Heap.fresh heap.symm)
  roots o ho := not_gone_of_root (roots o ho)
  owners p o hp ho := by
    rw [heap] at ho
    exact not_gone_of_owned hp ho

/-- The machine of a call, in which its receiver and its arguments are held. -/
def calling (m : Machine) (o : ObjId) (args : List Value) : Machine :=
  { m with held := .obj (.owned o) :: args ++ m.held }

theorem mem_roots_calling {o : ObjId} {args : List Value} {e : Entity}
    (h : (∃ v ∈ args, e ∈ v.owned) ∨ e ∈ m.roots) : e ∈ (m.calling o args).roots := by
  rcases h with ⟨v, hv, he⟩ | h
  · exact mem_roots.2 (.inr (.inl ⟨v, List.mem_cons_of_mem _ (List.mem_append_left _ hv), he⟩))
  · rcases mem_roots.1 h with h | ⟨v, hv, he⟩ | h
    · exact mem_roots.2 (.inl h)
    · exact mem_roots.2 (.inr (.inl ⟨v, List.mem_append_right (_ :: args) hv, he⟩))
    · exact mem_roots.2 (.inr (.inr h))

/-- The body of a method starts with nothing in use but the receiver and the arguments. -/
theorem confined_inBody (m : Machine) (o : ObjId) (name : String) (args : List Value) (method : Method) :
    (m.calling o args).Confined (· ∈ Value.obj (.owned o) :: args) (m.inBody o name args method) := by
  refine ⟨.start rfl fun p hp => mem_roots_calling ?_, fun x a hx => ?_⟩
  · rcases mem_roots.1 hp with hp | hp | hp | ⟨s, hs, hp⟩
    · exact .inr (mem_roots.2 (.inl hp))
    · exact .inr (mem_roots.2 (.inr (.inl hp)))
    · obtain ⟨x, hx⟩ := Scope.mem_owned_object.1 hp
      rcases Scope.mem_frame hx with heq | harg
      · cases heq
      · exact .inl ⟨_, harg, List.mem_singleton_self _⟩
    · rcases List.mem_cons.1 hs with rfl | hs
      · exact .inr (mem_roots.2 (.inr (.inr (.inl hp))))
      · exact .inr (mem_roots.2 (.inr (.inr (.inr ⟨s, hs, hp⟩))))
  · rcases Scope.mem_frame (Scope.mem_of_get? hx) with heq | harg
    · cases heq
      have howned : (m.calling o args).Leaves (· ∈ Value.obj (.owned o) :: args) (.owned o) :=
        leaves_of_finds fun p hp => .start List.mem_cons_self hp
      rcases howned with hin | ⟨-, heq⟩
      · exact .inl hin
      · cases heq
    · exact leaves_of_finds fun p hp => .start (List.mem_cons_of_mem _ harg) hp

end Machine

namespace Exec

open Machine

/-- The value that a run gives, by its end or by a `return`. -/
def Gives (r : Except Signal Value) (v : Value) : Prop :=
  r = .ok v ∨ ∃ span, r = .error (.returning v span)

/-- A value that leads nowhere outside is in use. -/
theorem Ends.within {m : Machine} {S : Value → Prop} {r : Except Signal Value} {v : Value}
    (h : Ends (m.Within S) (fun _ => True) (m.Within S) r) (hv : Gives r v) : m.Within S v := by
  rcases hv with rfl | ⟨span, rfl⟩
  · exact h
  · exact h

/-- A run from `m` to `m'` with the end `r` is confined to what values as `S` says lead to: it changes
no object but those and the ones that it makes, and gives nothing that leads to another. -/
structure Confines (m : Machine) (S : Value → Prop) (r : Except Signal Value) (m' : Machine) : Prop where
  frame : ∀ o < m.heap.fresh, ¬ m.Reaches S o → m'.heap.fields o = m.heap.fields o
  value : ∀ v o, Gives r v → m'.Reaches (· = v) o → m.Reaches S o ∨ m.Made m' o

section

variable {b m m' : Machine} {S : Value → Prop} (hS : ∀ o, S (.obj (.owned o)) → b.live (.object o) = true)
include hS

/-- What handles lead to behind a run that lead nowhere outside was reached, or was made. -/
theorem reaches_or_made (h : b.Apart S m) {T : Value → Prop} (hT : ∀ a, T (.obj a) → b.Leaves S a)
    {o : ObjId} (ho : m.Reaches T o) : b.Reaches S o ∨ b.Made m o :=
  (h.inside_of_reaches hS hT ho).imp_right fun hge => ⟨hge, ho.lt⟩

theorem Confines.of_apart (h : b.Apart S m) {r : Except Signal Value}
    (hr : Ends (b.Within S) (fun _ => True) (b.Within S) r) : Confines b S r m where
  frame o hlt ho := h.frame o fun hin => hin.elim ho (Nat.not_le.2 hlt)
  value v o hv ho := by
    refine reaches_or_made hS h (fun a ha => ?_) ho
    subst ha
    exact (hr.within hv).leaves

end

/-- A run is confined to what the scope leads to that it starts with, and leaves a scope behind that
leads to no more than that and what was made. -/
theorem confines_exec (limit : Option Nat) (n : Nat) (node : Node) (m : Machine) :
    Confines m m.Binds (exec limit n node m).1 (exec limit n node m).2 ∧
      ∀ o, (exec limit n node m).2.Reaches (exec limit n node m).2.Binds o →
        m.Reaches m.Binds o ∨ m.Made (exec limit n node m).2 o := by
  have hS : ∀ o, m.Binds (.obj (.owned o)) → m.live (.object o) = true :=
    fun o ⟨x, hx⟩ => live_of_scope (Scope.mem_of_get? hx)
  have hstart : m.Confined m.Binds m :=
    ⟨.start rfl fun _ ho => ho, fun x a hx => leaves_of_finds fun o ho => .start ⟨x, hx⟩ ho⟩
  obtain ⟨hm, hr⟩ := (Confined.invariant hS).exec limit n node trivial hstart
  exact ⟨.of_apart hS hm.toApart hr, fun o => reaches_or_made hS hm.toApart fun a ⟨x, hx⟩ => hm.scope x a hx⟩

theorem Ends.atCall {P : Value → Prop} {r : Except Signal Value} (h : Ends P (fun _ => True) P r) :
    Ends P (fun _ => True) P (atCall r) := by
  rcases r with s | v
  · cases s <;> trivial
  · exact h

/-- A call is confined to what its receiver and its arguments lead to while they are held. -/
theorem confines_callMethod (limit : Option Nat) (n : Nat) (o : ObjId) (name : String)
    (args : List Value) (span : Span) (m : Machine) :
    Confines (m.calling o args) (· ∈ Value.obj (.owned o) :: args)
      (callMethod limit (exec limit n) o name args span m).1
      (callMethod limit (exec limit n) o name args span m).2 := by
  have hS : ∀ p, .obj (.owned p) ∈ Value.obj (.owned o) :: args →
      (m.calling o args).live (.object p) = true :=
    fun p hp => live_of_held (List.mem_append_left _ hp)
  rcases callMethod_cases limit (exec limit n) o name args span m with ⟨method, -, hcall⟩ | ⟨e, t, hcall⟩
  · obtain ⟨hm, hr⟩ := (Confined.invariant hS).exec limit n method.body trivial (confined_inBody m o name args method)
    have hend : (m.calling o args).Apart (· ∈ Value.obj (.owned o) :: args)
        (m.behind (exec limit n method.body (m.inBody o name args method)).2) := by
      refine ⟨hm.fields, hm.frame, hm.fresh, fun p hp => ?_, hm.owners⟩
      rcases mem_roots.1 hp with hp | hp | hp
      · exact hm.roots p (mem_roots.2 (.inl hp))
      · exact hm.roots p (mem_roots.2 (.inr (.inl hp)))
      · exact not_gone_of_root (mem_roots_calling (.inr (mem_roots.2 (.inr (.inr hp)))))
    rw [hcall]
    exact .of_apart hS hend hr.atCall
  · have hend : (m.calling o args).Apart (· ∈ Value.obj (.owned o) :: args) { m with trace := t } :=
      .start rfl fun p hp => mem_roots_calling (.inr hp)
    rw [hcall]
    exact .of_apart hS hend (r := .error (.error e)) trivial

/-- Execution is confined: a node to what its scope leads to, which leads to nothing else afterwards but
to what was made, and a call to what its receiver and its arguments lead to. -/
theorem exec_confined (limit : Option Nat) (n : Nat) :
    (∀ node m, Confines m m.Binds (exec limit n node m).1 (exec limit n node m).2 ∧
      ∀ o, (exec limit n node m).2.Reaches (exec limit n node m).2.Binds o →
        m.Reaches m.Binds o ∨ m.Made (exec limit n node m).2 o) ∧
    ∀ o name args span m,
      Confines (m.calling o args) (· ∈ Value.obj (.owned o) :: args)
        (callMethod limit (exec limit n) o name args span m).1
        (callMethod limit (exec limit n) o name args span m).2 :=
  ⟨confines_exec limit n, confines_callMethod limit n⟩

end Exec

end ClassScript

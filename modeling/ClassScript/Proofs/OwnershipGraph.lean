import ClassScript.Proofs.Confinement
import Mathlib.Data.Fintype.Card
import Mathlib.Data.Fintype.EquivFin

/-!
# The graph of owners

What is on a heap owns what its fields hold, its class, its parent and the classes defined in its methods
(`Heap.Owns`).  A line of owners from a root keeps alive whatever it leads to (`Machine.live_of_kept`).  As
long as nothing owns itself along such a line (`Heap.Acyclic`), nothing else is alive
(`Machine.kept_of_live`), so that what nobody can reach is released.  A new object, the classes of a tree
and a field that is set make rings only in the way in which one expects it.
-/

namespace ClassScript

open Relation

/-! ### Releases without rings -/

namespace Release

variable {owned : Nat → List Nat} {n : Nat} {roots : List Nat}

/-- If nothing owns itself, a line of owners leads from a root to whatever is not lost. -/
theorem exists_root_of_not_lost (hring : ∀ i, ¬ TransGen (fun j i => i ∈ owned j) i i) {i : Nat} (hi : i < n)
    (h : ¬ Lost owned n roots i) : ∃ r ∈ roots, ReflTransGen (fun j i => i ∈ owned j) r i := by
  let below (j i : Fin n) : Prop := TransGen (fun j i => i ∈ owned j) j.val i.val
  have htrans : IsTrans (Fin n) below := ⟨fun _ _ _ => TransGen.trans⟩
  have hirrefl : Std.Irrefl below := ⟨fun i => hring i.val⟩
  have hwf : WellFounded below := Finite.wellFounded_of_trans_of_irrefl below
  suffices ∀ k : Fin n, ¬ Lost owned n roots k →
      ∃ r ∈ roots, ReflTransGen (fun j i => i ∈ owned j) r k.val from this ⟨i, hi⟩ h
  intro k
  induction k using hwf.induction with
  | _ k ih =>
    intro hk
    by_cases hroot : k.val ∈ roots
    · exact ⟨k, hroot, .refl⟩
    · -- what is no root and not lost has an owner that is not lost
      have hex : ∃ j < n, k.val ∈ owned j ∧ ¬ Lost owned n roots j := by
        by_contra hno
        push Not at hno
        exact hk (.intro hroot hno)
      obtain ⟨j, hj, hown, hleft⟩ := hex
      obtain ⟨r, hr, hpath⟩ := ih ⟨j, hj⟩ (.single hown) hleft
      exact ⟨r, hr, hpath.tail hown⟩

end Release

/-! ### Owners on a heap -/

namespace Heap

/-- What something keeps alive, if it is on the heap. -/
def ownedBy (h : Heap) : Entity → List Entity
  | .object o => ((h.objects[o]?).map Object.owned).getD []
  | .cls c => ((h.class? c).map ClassOf.owned).getD []

/-- Something on the heap keeps something alive. -/
def Owns (h : Heap) (e f : Entity) : Prop := f ∈ h.ownedBy e

/-- Nothing owns itself, be it by others. -/
def Acyclic (h : Heap) : Prop := ∀ e, ¬ TransGen h.Owns e e

variable {h : Heap}

theorem owns_object {o : ObjId} {f : Entity} (ho : o < h.fresh) :
    h.Owns (.object o) f ↔ f = .cls (h.classOf o) ∨ f ∈ (h.fields o).owned := by
  have hget : h.objects[o]? = some h.objects[o] := Array.getElem?_eq_getElem ho
  rw [Owns, ownedBy, classOf, fields, hget]
  exact List.mem_cons

theorem lt_fresh_of_owns {o : ObjId} {f : Entity} (hf : h.Owns (.object o) f) : o < h.fresh := by
  refine Nat.lt_of_not_le fun hge => ?_
  rw [Owns, ownedBy, Array.getElem?_eq_none hge] at hf
  exact List.not_mem_nil hf

theorem owns_cls {c : ClassId} {f : Entity} :
    h.Owns (.cls c) f ↔ ∃ d, h.class? c = some d ∧ f ∈ ClassOf.owned d := by
  rw [Owns, ownedBy]
  cases h.class? c with
  | none => exact iff_of_false List.not_mem_nil (by rintro ⟨d, ⟨⟩, -⟩)
  | some d => exact ⟨fun hf => ⟨d, rfl, hf⟩, by rintro ⟨d', ⟨⟩, hf⟩; exact hf⟩

/-- Classes own classes only. -/
theorem exists_cls_of_owns {c : ClassId} {f : Entity} (hf : h.Owns (.cls c) f) : ∃ c', f = .cls c' := by
  obtain ⟨d, -, hf⟩ := owns_cls.1 hf
  obtain ⟨c', -, hc'⟩ := List.mem_map.1 hf
  exact ⟨c', hc'.symm⟩

theorem exists_cls_of_path {c : ClassId} {f : Entity} (hf : ReflTransGen h.Owns (.cls c) f) :
    ∃ c', f = .cls c' := by
  induction hf with
  | refl => exact ⟨c, rfl⟩
  | tail _ hown ih =>
    obtain ⟨c', rfl⟩ := ih
    exact exists_cls_of_owns hown

/-! ### Owners by number -/

theorem slot?_inj {e f : Entity} {i : Nat} (he : h.slot? e = some i) (hf : h.slot? f = some i) : e = f := by
  by_cases hi : i < h.fresh
  · rw [(slot?_eq_some_iff hi).1 he, (slot?_eq_some_iff hi).1 hf]
  · have hcls {e : Entity} (he : h.slot? e = some i) :
        ∃ (c : ClassId) (hj : i - h.objects.size < h.classes.length),
          e = .cls c ∧ h.classes[i - h.objects.size].id = c := by
      cases e with
      | object o =>
        obtain ⟨ho, rfl⟩ : o < h.objects.size ∧ o = i := by simpa [slot?] using he
        exact absurd ho hi
      | cls c =>
        obtain ⟨j, hj, rfl⟩ := Option.map_eq_some_iff.1 he
        obtain ⟨hlt, hid, -⟩ := List.findIdx?_eq_some_iff_getElem.1 hj
        refine ⟨c, ?_, rfl, ?_⟩
        · rwa [Nat.add_sub_cancel_left]
        · simpa using hid
    obtain ⟨c, hj, rfl, rfl⟩ := hcls he
    obtain ⟨c', -, rfl, rfl⟩ := hcls hf
    rfl

/-- What is found under the number of something is what it owns. -/
theorem ownedAt_of_slot? {e : Entity} {i : Nat} (he : h.slot? e = some i) : h.ownedAt i = h.ownedBy e := by
  cases e with
  | object o =>
    obtain ⟨ho, rfl⟩ : o < h.objects.size ∧ o = i := by simpa [slot?] using he
    rw [ownedAt, ownedBy, Array.getElem?_eq_getElem ho]
    rfl
  | cls c =>
    obtain ⟨j, hj, rfl⟩ := Option.map_eq_some_iff.1 he
    have hnone : h.objects[h.objects.size + j]? = none := Array.getElem?_eq_none (Nat.le_add_right _ j)
    have hclass : h.classes[j]? = h.class? c := by
      rw [class?, List.find?_eq_bind_findIdx?_getElem?, hj]
      rfl
    rw [ownedAt, hnone, Nat.add_sub_cancel_left, hclass]
    rfl

/-- What owns something is on the heap. -/
theorem exists_slot_of_owns {e f : Entity} (hf : h.Owns e f) : ∃ i, h.slot? e = some i := by
  cases e with
  | object o => exact ⟨o, if_pos (lt_fresh_of_owns hf)⟩
  | cls c =>
    obtain ⟨d, hd, -⟩ := owns_cls.1 hf
    rw [class?, List.find?_eq_bind_findIdx?_getElem?] at hd
    obtain ⟨j, hj, -⟩ := Option.bind_eq_some_iff.1 hd
    exact ⟨h.objects.size + j, Option.map_eq_some_iff.2 ⟨j, hj, rfl⟩⟩

/-- The numbers that a number owns are those of what its thing owns. -/
theorem mem_slotsAt {e : Entity} {i j : Nat} (he : h.slot? e = some i) :
    j ∈ h.slotsAt i ↔ ∃ f, h.Owns e f ∧ h.slot? f = some j := by
  rw [slotsAt, List.mem_filterMap, ownedAt_of_slot? he]
  rfl

/-- A number that something owns is that of something. -/
theorem exists_of_mem_slotsAt {i j : Nat} (hj : j ∈ h.slotsAt i) : ∃ f, h.slot? f = some j := by
  obtain ⟨f, -, hf⟩ := List.mem_filterMap.1 hj
  exact ⟨f, hf⟩

/-- A line of numbers from that of something is a line of owners. -/
theorem exists_path {e : Entity} {i j : Nat} (he : h.slot? e = some i)
    (hpath : ReflTransGen (fun j i => i ∈ h.slotsAt j) i j) :
    ∃ f, h.slot? f = some j ∧ ReflTransGen h.Owns e f := by
  induction hpath with
  | refl => exact ⟨e, he, .refl⟩
  | tail _ hmem ih =>
    obtain ⟨f, hf, hpath⟩ := ih
    obtain ⟨g, hown, hg⟩ := (mem_slotsAt hf).1 hmem
    exact ⟨g, hg, hpath.tail hown⟩

/-- If nothing on a heap owns itself, no number does. -/
theorem Acyclic.slots (hring : h.Acyclic) (i : Nat) : ¬ TransGen (fun j i => i ∈ h.slotsAt j) i i := by
  intro hloop
  obtain ⟨k, hpath, hmem⟩ := TransGen.tail'_iff.1 hloop
  obtain ⟨e, he⟩ := exists_of_mem_slotsAt hmem
  obtain ⟨f, hf, hown⟩ := exists_path he hpath
  obtain ⟨g, hlast, hg⟩ := (mem_slotsAt hf).1 hmem
  rw [← slot?_inj he hg] at hlast
  exact hring e (TransGen.tail' hown hlast)

end Heap

/-! ### Life -/

namespace Machine

/-- A line of owners leads to something from what is owned from outside: by the trees at hand, a scope or
a value in use. -/
def Kept (m : Machine) (e : Entity) : Prop := ∃ r ∈ m.roots, ReflTransGen m.heap.Owns r e

variable {m : Machine} {e f : Entity}

theorem live_of_root (h : e ∈ m.roots) : m.live e = true := by
  rw [live, isRoot_iff.2 h, Bool.true_or]

/-- What is alive is a root or on the heap. -/
theorem root_or_isSome_of_live (h : m.live e = true) : e ∈ m.roots ∨ (m.heap.slot? e).isSome := by
  cases hs : m.heap.slot? e with
  | some i => exact .inr rfl
  | none =>
    have halive : m.heap.alive m.roots e = false := by
      rw [Heap.alive, hs]
    rw [live, halive, Bool.or_false, isRoot_iff] at h
    exact .inl h

/-- What a live thing owns on the heap is alive. -/
theorem live_of_owns (he : m.live e = true) (hown : m.heap.Owns e f) (hf : (m.heap.slot? f).isSome) :
    m.live f = true := by
  obtain ⟨i, hi⟩ := Heap.exists_slot_of_owns hown
  obtain ⟨j, hj⟩ := Option.isSome_iff_exists.1 hf
  rw [live_iff_not_lost hi] at he
  rw [live_iff_not_lost hj]
  rintro ⟨-, owners⟩
  exact he (owners i (Heap.slot?_lt hi) ((Heap.mem_slotsAt hi).2 ⟨f, hown, hj⟩))

/-- What a line of owners leads to from a root is alive, if it is on the heap. -/
theorem live_of_kept (h : m.Kept e) (he : (m.heap.slot? e).isSome) : m.live e = true := by
  obtain ⟨r, hr, hpath⟩ := h
  induction hpath with
  | refl => exact live_of_root hr
  | tail _ hown ih =>
    refine live_of_owns (ih ?_) hown he
    exact Option.isSome_iff_exists.2 (Heap.exists_slot_of_owns hown)

/-- Where nothing owns itself, a line of owners leads to whatever is alive from a root. -/
theorem kept_of_live (hring : m.heap.Acyclic) (he : m.live e = true) : m.Kept e := by
  rcases root_or_isSome_of_live he with hroot | hslot
  · exact ⟨e, hroot, .refl⟩
  · obtain ⟨i, hs⟩ := Option.isSome_iff_exists.1 hslot
    rw [live_iff_not_lost hs] at he
    obtain ⟨j, hj, hpath⟩ := Release.exists_root_of_not_lost hring.slots (Heap.slot?_lt hs) he
    obtain ⟨r, hr, hslot⟩ := List.mem_filterMap.1 hj
    obtain ⟨f, hf, hown⟩ := Heap.exists_path hslot hpath
    rw [Heap.slot?_inj hf hs] at hown
    exact ⟨r, hr, hown⟩

end Machine

/-! ### Rings -/

theorem Scope.mem_owned_set {s : Scope} {x : String} {v : Value} {e : Entity} (h : e ∈ (s.set x v).owned) :
    e ∈ v.owned ∨ e ∈ s.owned := by
  obtain ⟨⟨y, w⟩, hb, he⟩ := List.mem_flatMap.1 h
  rcases Scope.mem_rebind hb with ⟨-, rfl⟩ | hold
  · exact .inl he
  · exact .inr (List.mem_flatMap.2 ⟨(y, w), hold, he⟩)

namespace Heap

variable {h h' : Heap}

/-- A heap has no rings if one without rings has its owners, but for some that what they own never leads
back to. -/
theorem Acyclic.extend (hring : h.Acyclic)
    (hnew : ∀ e f, h'.Owns e f → h.Owns e f ∨ ¬ ReflTransGen h'.Owns f e) : h'.Acyclic := by
  have hcase {e g : Entity} (hpath : TransGen h'.Owns e g) : TransGen h.Owns e g ∨
      ∃ a b, ReflTransGen h'.Owns e a ∧ ¬ ReflTransGen h'.Owns b a ∧ ReflTransGen h'.Owns b g := by
    induction hpath with
    | single hown => exact (hnew _ _ hown).imp .single fun hno => ⟨_, _, .refl, hno, .refl⟩
    | tail hpath hown ih =>
      rcases ih with hold | ⟨a, b, hea, hno, hbg⟩
      · exact (hnew _ _ hown).imp hold.tail fun hno => ⟨_, _, hpath.to_reflTransGen, hno, .refl⟩
      · exact .inr ⟨a, b, hea, hno, hbg.tail hown⟩
  intro e hloop
  rcases hcase hloop with hold | ⟨a, b, hea, hno, hbe⟩
  · exact hring e hold
  · exact hno (hbe.trans hea)

theorem acyclic_empty : ({} : Heap).Acyclic := by
  intro e hloop
  obtain ⟨f, -, hlast⟩ := TransGen.tail'_iff.1 hloop
  cases f with
  | object o => exact absurd (lt_fresh_of_owns hlast) (Nat.not_lt_zero o)
  | cls c =>
    obtain ⟨d, hd, -⟩ := owns_cls.1 hlast
    cases hd

/-- A new object owns its class only. -/
theorem owns_allocate {c : ClassId} {e f : Entity} (hown : (h.allocate c).Owns e f) :
    h.Owns e f ∨ e = .object h.fresh ∧ f = .cls c := by
  cases e with
  | cls c' => exact .inl hown
  | object o =>
    have hlt : o < (h.allocate c).fresh := lt_fresh_of_owns hown
    rw [owns_object hlt] at hown
    by_cases ho : o = h.fresh
    · subst ho
      rw [classOf_allocate_self, fields_allocate_self] at hown
      rcases hown with rfl | hmem
      · exact .inr ⟨rfl, rfl⟩
      · exact absurd hmem List.not_mem_nil
    · rw [fresh_allocate] at hlt
      have hlt' : o < h.fresh := Nat.lt_of_le_of_ne (Nat.le_of_lt_succ hlt) ho
      rw [classOf_allocate_of_lt h c hlt', fields_allocate_of_ne h c ho] at hown
      exact .inl ((owns_object hlt').2 hown)

/-- To make an object closes no ring: it owns its class, and classes own no objects. -/
theorem Acyclic.allocate (hring : h.Acyclic) (c : ClassId) : (h.allocate c).Acyclic := by
  refine hring.extend fun e f hown => (owns_allocate hown).imp_right ?_
  rintro ⟨rfl, rfl⟩ hback
  obtain ⟨c', hc'⟩ := exists_cls_of_path hback
  cases hc'

/-- An object whose field is set owns what the value does, and what it owned before at most. -/
theorem owns_setField {o : ObjId} {x : String} {v : Value} {e f : Entity}
    (hown : (h.setField o x v).Owns e f) : h.Owns e f ∨ e = .object o ∧ f ∈ v.owned := by
  cases e with
  | cls c => exact .inl hown
  | object p =>
    have hlt : p < (h.setField o x v).fresh := lt_fresh_of_owns hown
    rw [owns_object hlt, classOf_setField] at hown
    rw [fresh_setField] at hlt
    by_cases hp : p = o
    · subst hp
      rw [fields_setField_self h x v hlt] at hown
      rcases hown with hcls | hmem
      · exact .inl ((owns_object hlt).2 (.inl hcls))
      · exact (Scope.mem_owned_set hmem).symm.imp (fun hold => (owns_object hlt).2 (.inr hold)) fun hv => ⟨rfl, hv⟩
    · rw [fields_setField_of_ne h x v hp] at hown
      exact .inl ((owns_object hlt).2 hown)

/-- To set a field closes no ring if the value does not lead to the object. -/
theorem Acyclic.setField (hring : h.Acyclic) {o : ObjId} {v : Value}
    (hv : ∀ e ∈ v.owned, ¬ ReflTransGen h.Owns e (.object o)) (x : String) : (h.setField o x v).Acyclic := by
  -- up to where it comes to the object for the first time, a line to it was there before
  have hold {e : Entity} (hpath : ReflTransGen (h.setField o x v).Owns e (.object o)) :
      ReflTransGen h.Owns e (.object o) := by
    induction hpath using ReflTransGen.head_induction_on with
    | refl => exact .refl
    | head hown _ ih =>
      rcases owns_setField hown with hown | ⟨rfl, -⟩
      · exact .head hown ih
      · exact .refl
  refine hring.extend fun e f hown => (owns_setField hown).imp_right ?_
  rintro ⟨rfl, hf⟩ hback
  exact hv f hf (hold hback)

end Heap

end ClassScript

import ClassScript.Object.Lost
import ClassScript.Run.Path

/-!
# Handles that do not own

A handle that does not own its object stands in two places only: as `self` in the frame of a call, and
as `self` in the fields of its own object (`Machine.Tidy`).  In a frame its object is held by the caller,
and in fields it is found on a line of owners that leads to the object; so it always leads somewhere.
Main statement: a path along which there is a value is read (`Machine.Tidy.read_of_leads`).
-/

namespace ClassScript

/-- A value that keeps its object alive, if it is an object at all. -/
def Value.Owning (v : Value) : Prop := ∀ o, v ≠ .obj (.shared o)

/-- A value with a handle that owns its object. -/
def Value.taken : Value → Value
  | .obj (.shared o) => .obj (.owned o)
  | v => v

theorem Value.taken_owning (v : Value) : v.taken.Owning := by
  intro o h
  cases v with
  | obj a => cases a <;> cases h
  | _ => cases h

/-! ### Bindings -/

namespace Scope

/-- A name is bound to a handle that does not own its object. -/
def Shares (s : Scope) (x : String) (o : ObjId) : Prop := (x, .obj (.shared o)) ∈ s.entries

theorem mem_rebind {x y : String} {v w : Value} {es : List (String × Value)}
    (h : (y, w) ∈ rebind x v es) : (y = x ∧ w = v) ∨ (y, w) ∈ es := by
  induction es with
  | nil =>
    rw [rebind, List.mem_singleton] at h
    cases h
    exact .inl ⟨rfl, rfl⟩
  | cons e es ih =>
    obtain ⟨z, u⟩ := e
    rw [rebind] at h
    by_cases hz : z = x
    · rw [if_pos hz] at h
      rcases List.mem_cons.1 h with h | h
      · cases h
        exact .inl ⟨hz, rfl⟩
      · exact .inr (List.mem_cons_of_mem _ h)
    · rw [if_neg hz] at h
      rcases List.mem_cons.1 h with h | h
      · exact .inr (h ▸ List.mem_cons_self)
      · rcases ih h with h | h
        · exact .inl h
        · exact .inr (List.mem_cons_of_mem _ h)

theorem Shares.of_set {s : Scope} {x y : String} {v : Value} {o : ObjId} (hv : v.Owning)
    (h : (s.set x v).Shares y o) : s.Shares y o := by
  rcases mem_rebind h with ⟨-, h⟩ | h
  · exact absurd h.symm (hv o)
  · exact h

theorem Shares.of_setAll {s : Scope} {bs : List (String × Value)} {y : String} {o : ObjId}
    (hv : ∀ b ∈ bs, b.2.Owning) (h : (s.setAll bs).Shares y o) : s.Shares y o := by
  induction bs generalizing s with
  | nil => exact h
  | cons b bs ih =>
    obtain ⟨hb, hbs⟩ := List.forall_mem_cons.1 hv
    exact (ih hbs h).of_set hb

theorem not_shares_empty (x : String) (o : ObjId) : ¬ ({} : Scope).Shares x o := List.not_mem_nil

theorem mem_of_get? {s : Scope} {x : String} {v : Value} (h : s.get? x = some v) :
    (x, v) ∈ s.entries := by
  obtain ⟨l₁, l₂, he, -⟩ := List.lookup_eq_some_iff.1 h
  rw [he]
  exact List.mem_append_right _ List.mem_cons_self

end Scope

namespace Heap

/-- The fields of new objects hold themselves, and none but themselves. -/
theorem shares_allocate {h : Heap} {c : ClassId} {p : ObjId} {x : String} {o : ObjId}
    (hs : ((h.allocate c).fields p).Shares x o) :
    (x = selfName ∧ o = p) ∨ (h.fields p).Shares x o := by
  by_cases hp : p < h.fresh
  · rw [fields_allocate_of_ne h c (Nat.ne_of_lt hp)] at hs
    exact .inr hs
  · by_cases he : p = h.fresh
    · subst he
      have hf : (h.allocate c).fields h.fresh = ({} : Scope).set selfName (.obj (.shared h.fresh)) := by
        simp [fields, allocate, fresh, newObject]
      rw [hf] at hs
      rcases Scope.mem_rebind hs with ⟨hx, hv⟩ | hs
      · cases hv
        exact .inl ⟨hx, rfl⟩
      · exact absurd hs List.not_mem_nil
    · have hf : (h.allocate c).fields p = {} := by
        have hlt : h.objects.size < p := Nat.lt_of_le_of_ne (Nat.not_lt.1 hp) (Ne.symm he)
        simp [fields, allocate, Array.getElem?_push, Nat.ne_of_gt hlt, Nat.le_of_lt hlt]
      rw [hf] at hs
      exact absurd hs (Scope.not_shares_empty x o)

theorem shares_setField {h : Heap} {q p : ObjId} {f x : String} {v : Value} {o : ObjId}
    (hv : v.Owning) (hs : ((h.setField q f v).fields p).Shares x o) : (h.fields p).Shares x o := by
  unfold fields setField at hs
  rw [Array.getElem?_modify] at hs
  unfold fields
  split at hs
  · cases ho : h.objects[p]? with
    | none =>
      rw [ho] at hs
      exact hs
    | some ob =>
      rw [ho] at hs
      exact Scope.Shares.of_set hv hs
  · exact hs

/-- What an object that is not lost owns on the heap is not lost either. -/
theorem not_lost_of_owned {h : Heap} {roots : List Nat} {p q : ObjId} (hp : p < h.objects.size)
    (hq : q < h.objects.size) (ho : .object q ∈ (h.fields p).owned)
    (hl : ¬ Release.Lost h.slotsAt h.population roots p) :
    ¬ Release.Lost h.slotsAt h.population roots q := by
  rintro ⟨-, owners⟩
  apply hl
  have hslot : h.slot? (.object q) = some q := by
    rw [slot?, if_pos hq]
  apply owners p (Nat.lt_add_right _ hp)
  refine List.mem_filterMap.2 ⟨.object q, ?_, hslot⟩
  rw [ownedAt, Array.getElem?_eq_getElem hp]
  apply List.mem_cons_of_mem
  rw [fields, Array.getElem?_eq_getElem hp] at ho
  exact ho

end Heap

/-! ### Life -/

namespace Machine

/-- What is on the heap is alive just if it is not lost. -/
theorem live_iff_not_lost {m : Machine} {e : Entity} {i : Nat} (he : m.heap.slot? e = some i) :
    m.live e = true ↔
      ¬ Release.Lost m.heap.slotsAt m.heap.population (m.roots.filterMap m.heap.slot?) i := by
  rw [live, Bool.or_eq_true, isRoot_iff, Heap.alive_iff_not_lost he]
  refine ⟨?_, .inr⟩
  rintro (hr | hl)
  · rintro ⟨root, -⟩
    exact root (List.mem_filterMap.2 ⟨e, hr, he⟩)
  · exact hl

theorem live_of_held {m : Machine} {o : ObjId} (h : .obj (.owned o) ∈ m.held) :
    m.live (.object o) = true := by
  rw [live, Bool.or_eq_true, isRoot_iff]
  refine .inl (List.mem_append_left _ (List.mem_append_left _ (List.mem_append_right _ ?_)))
  exact List.mem_flatMap.2 ⟨_, h, List.mem_singleton.2 rfl⟩

theorem live_of_scope {m : Machine} {x : String} {o : ObjId}
    (h : (x, .obj (.owned o)) ∈ m.scope.entries) : m.live (.object o) = true := by
  rw [live, Bool.or_eq_true, isRoot_iff]
  refine .inl (List.mem_append_left _ (List.mem_append_right _ ?_))
  exact List.mem_flatMap.2 ⟨_, h, List.mem_singleton.2 rfl⟩

/-- What a field of a live object owns on the heap is alive. -/
theorem live_of_field {m : Machine} {p q : ObjId} {x : String} (hq : q < m.heap.objects.size)
    (hf : m.heap.field? p x = some (.obj (.owned q))) (hp : m.live (.object p) = true) :
    m.live (.object q) = true := by
  have hmem := Scope.mem_of_get? hf
  have hlt : p < m.heap.objects.size := by
    apply Nat.lt_of_not_le
    intro hge
    rw [Heap.fields, Array.getElem?_eq_none hge] at hmem
    exact List.not_mem_nil hmem
  have hslot {r : ObjId} (hr : r < m.heap.objects.size) : m.heap.slot? (.object r) = some r := by
    rw [Heap.slot?, if_pos hr]
  rw [live_iff_not_lost (hslot hlt)] at hp
  rw [live_iff_not_lost (hslot hq)]
  exact Heap.not_lost_of_owned hlt hq (List.mem_flatMap.2 ⟨_, hmem, List.mem_singleton.2 rfl⟩) hp

/-! ### Where handles stand that do not own -/

/-- Handles that do not own stand only as `self` in frames, the last scope being none, and as `self` of
the object itself in fields; what they lead to in frames is held. -/
structure Tidy (m : Machine) : Prop where
  scopes : ∀ s ∈ m.scope :: m.callers, ∀ x o, s.Shares x o →
    x = selfName ∧ .obj (.owned o) ∈ m.held
  globals : ∀ s ∈ (m.scope :: m.callers).getLast?, ∀ x o, ¬ s.Shares x o
  held : ∀ v ∈ m.held, v.Owning
  fields : ∀ p x o, (m.heap.fields p).Shares x o → x = selfName ∧ o = p

/-- A value is found behind another along names, whatever is alive. -/
inductive Leads (m : Machine) : Value → List String → Value → Prop
  | here (v : Value) : Leads m v [] v
  | field {a : Handle} {x : String} {xs : List String} {v w : Value}
    (h : m.heap.field? a.id x = some v) (rest : Leads m v xs w) : Leads m (.obj a) (x :: xs) w

/-- A value that leads to a live object, if to any. A handle that owns may lead off the heap. -/
def Leading (m : Machine) (v : Value) : Prop :=
  ∀ a, v = .obj a → m.live (.object a.id) = true ∨ v.Owning ∧ m.heap.objects.size ≤ a.id

theorem resolve_of_live {m : Machine} {a : Handle} (ha : m.live (.object a.id) = true) :
    m.resolve a = some a.id := by
  cases a with
  | owned o => rfl
  | shared o => exact if_pos ha

theorem Leading.resolve {m : Machine} {a : Handle} (h : m.Leading (.obj a)) : m.resolve a = some a.id := by
  rcases h a rfl with hlive | ⟨ho, -⟩
  · exact resolve_of_live hlive
  · cases a with
    | owned o => rfl
    | shared o => exact absurd rfl (ho o)

theorem lt_size_of_field? {m : Machine} {p : ObjId} {x : String} {v : Value}
    (hf : m.heap.field? p x = some v) : p < m.heap.objects.size := by
  apply Nat.lt_of_not_le
  intro hge
  rw [Heap.field?, Heap.fields, Array.getElem?_eq_none hge] at hf
  cases hf

/-- An object with a field is on the heap, so a value that leads to it leads to a live object. -/
theorem Leading.live {m : Machine} {a : Handle} (h : m.Leading (.obj a)) {x : String} {v : Value}
    (hf : m.heap.field? a.id x = some v) : m.live (.object a.id) = true := by
  rcases h a rfl with hlive | ⟨-, hge⟩
  · exact hlive
  · exact absurd (lt_size_of_field? hf) (Nat.not_lt.2 hge)

theorem Leading.owning {m : Machine} {v : Value} (hv : m.Leading v) (path : List String) :
    m.owning path v = .ok v.taken := by
  cases v with
  | obj a =>
    cases a with
    | owned o => rfl
    | shared o =>
      rcases hv _ rfl with hl | ⟨ho, -⟩
      · exact if_pos hl
      · exact absurd rfl (ho o)
  | _ => rfl

namespace Tidy

variable {m : Machine} (h : m.Tidy)
include h

/-- Nothing in a frame leads to a dead object. -/
theorem live {s : Scope} (hs : s ∈ m.scope :: m.callers) {x : String} {o : ObjId}
    (ho : s.Shares x o) : m.live (.object o) = true :=
  live_of_held (h.scopes s hs x o ho).2

theorem leading_of_get? {x : String} {v : Value} (hx : m.scope.get? x = some v) : m.Leading v := by
  rintro a rfl
  have hmem := Scope.mem_of_get? hx
  cases a with
  | owned o => exact .inl (live_of_scope hmem)
  | shared o => exact .inl (h.live List.mem_cons_self hmem)

theorem leading_of_field? {p : ObjId} {x : String} {v : Value} (hf : m.heap.field? p x = some v)
    (hp : m.live (.object p) = true) : m.Leading v := by
  rintro a rfl
  cases a with
  | owned q =>
    by_cases hq : q < m.heap.objects.size
    · exact .inl (live_of_field hq hf hp)
    · refine .inr ⟨?_, Nat.not_lt.1 hq⟩
      rintro o ⟨⟩
  | shared q =>
    obtain ⟨-, rfl⟩ := h.fields p x q (Scope.mem_of_get? hf)
    exact .inl hp

/-- Names are followed to the value that they lead to. -/
theorem follow_of_leads {v w : Value} {xs : List String} (hl : m.Leads v xs w) (hv : m.Leading v)
    (seen : List String) : m.follow v seen xs = .ok w ∧ m.Leading w := by
  induction hl generalizing seen with
  | here v => exact ⟨rfl, hv⟩
  | @field a x xs v w hf _ ih =>
    have ha := hv.live hf
    obtain ⟨hfollow, hw⟩ := ih (h.leading_of_field? hf ha) (seen ++ [x])
    refine ⟨?_, hw⟩
    rw [follow]
    simp only [resolve_of_live ha, Option.bind_some, hf]
    exact hfollow

/-- A path along which there is a value is read, and what is read owns its object. -/
theorem read_of_leads {x : String} {xs : List String} {v w : Value} (hx : m.scope.get? x = some v)
    (hl : m.Leads v xs w) : m.read (x :: xs) = .ok w.taken := by
  obtain ⟨hfollow, hw⟩ := h.follow_of_leads hl (h.leading_of_get? hx) [x]
  rw [read, hx]
  dsimp only
  rw [hfollow]
  exact hw.owning (x :: xs)

end Tidy

/-- Behind a value that leads to a live object on two tidy machines with one heap, names are followed to the
same value. -/
theorem Tidy.follow_congr {m m' : Machine} (hm : m.Tidy) (hm' : m'.Tidy) (hheap : m.heap = m'.heap) {v : Value}
    (hv : m.Leading v) (hv' : m'.Leading v) (seen xs : List String) :
    m.follow v seen xs = m'.follow v seen xs ∧
      ∀ w, m.follow v seen xs = .ok w → m.Leading w ∧ m'.Leading w := by
  induction xs generalizing v seen with
  | nil =>
    refine ⟨rfl, ?_⟩
    rintro w ⟨⟩
    exact ⟨hv, hv'⟩
  | cons x xs ih =>
    cases v with
    | obj a =>
      simp only [follow, hv.resolve, hv'.resolve, Option.bind_some, ← hheap]
      cases hf : m.heap.field? a.id x with
      | none => exact ⟨rfl, fun w hw => by cases hw⟩
      | some u =>
        have hf' : m'.heap.field? a.id x = some u := hheap ▸ hf
        exact ih (hm.leading_of_field? hf (hv.live hf)) (hm'.leading_of_field? hf' (hv'.live hf')) _
    | _ => exact ⟨rfl, fun w hw => by cases hw⟩

/-- Paths are read alike on tidy machines with one scope and one heap, whatever else is alive there. -/
theorem Tidy.read_congr {m m' : Machine} (hm : m.Tidy) (hm' : m'.Tidy) (hscope : m.scope = m'.scope)
    (hheap : m.heap = m'.heap) (path : List String) : m.read path = m'.read path := by
  cases path with
  | nil => rfl
  | cons x xs =>
    rw [read, read, ← hscope]
    cases hx : m.scope.get? x with
    | none => rfl
    | some v =>
      have hx' : m'.scope.get? x = some v := hscope ▸ hx
      obtain ⟨hfollow, hleads⟩ :=
        hm.follow_congr hm' hheap (hm.leading_of_get? hx) (hm'.leading_of_get? hx') [x] xs
      dsimp only
      rw [← hfollow]
      cases hw : m.follow v [x] xs with
      | error name => rfl
      | ok w =>
        obtain ⟨hl, hl'⟩ := hleads w hw
        exact (hl.owning _).trans (hl'.owning _).symm

/-- Handles as they should be. Those that do not own their objects are bound to `self` in frames, where
they lead to live objects, or in the fields of the very objects; none is among the globals or the
values in use. A path along which there is a value is read, and what is read owns its object. -/
structure InOrder (m : Machine) : Prop where
  frames : ∀ s ∈ m.scope :: m.callers, ∀ x o, s.Shares x o → x = selfName ∧ m.live (.object o) = true
  globals : ∀ s ∈ (m.scope :: m.callers).getLast?, ∀ x o, ¬ s.Shares x o
  held : ∀ v ∈ m.held, v.Owning
  fields : ∀ p x o, (m.heap.fields p).Shares x o → x = selfName ∧ o = p
  paths : ∀ x xs v w, m.scope.get? x = some v → m.Leads v xs w → m.read (x :: xs) = .ok w.taken

theorem Tidy.inOrder {m : Machine} (h : m.Tidy) : m.InOrder :=
  ⟨fun s hs x o ho => ⟨(h.scopes s hs x o ho).1, h.live hs ho⟩, h.globals, h.held, h.fields,
    fun _ _ _ _ hx hl => h.read_of_leads hx hl⟩

theorem owning_of_read {m : Machine} {path : List String} {v : Value} (h : m.read path = .ok v) :
    v.Owning := by
  cases path with
  | nil => cases h
  | cons x xs =>
    rw [read] at h
    cases hx : m.scope.get? x with
    | none =>
      rw [hx] at h
      cases h
    | some u =>
      rw [hx] at h
      dsimp only at h
      cases hf : m.follow u [x] xs with
      | error name =>
        rw [hf] at h
        cases h
      | ok w =>
        rw [hf] at h
        have htaken : v = w.taken := by
          cases w with
          | obj a =>
            cases a with
            | owned o =>
              cases h
              rfl
            | shared o =>
              change (if m.live (.object o) = true then _ else _) = _ at h
              split at h
              · cases h
                rfl
              · cases h
          | _ =>
            cases h
            rfl
        rw [htaken]
        exact w.taken_owning

end Machine

end ClassScript

import ClassScript.Proofs.CallDepth
import ClassScript.Proofs.ClassesAtHand
import ClassScript.Proofs.ClassOrder
import ClassScript.Proofs.ProgramsJoined
import ClassScript.Session

/-!
# How long classes live

In a session programs come and go, and each class lives as long as something owns it: the tree of the program
that is being run, the globals, a frame, a value in use, or something that is owned by these.  All classes that
are owned are on the heap (`Machine.Grounded`), which a run keeps.  So a class outlives its instances, its
subclasses and the classes in whose methods it is defined (`Machine.Lifetimes`), and a node that makes an
instance finds its class just if a line of owners leads there.  Main statement: `Session.Reached.classes_owned`.
-/

namespace ClassScript

open Relation

/-! ### Classes on the heap -/

namespace Heap

variable {h : Heap} {c : ClassId}

/-- A class is on the heap. -/
def Knows (h : Heap) (c : ClassId) : Prop := ∃ d ∈ h.classes, d.id = c

theorem isSome_slot?_of_knows (hc : h.Knows c) : (h.slot? (.cls c)).isSome := by
  obtain ⟨d, hd, rfl⟩ := hc
  rw [slot?, Option.isSome_map, List.findIdx?_isSome, List.any_eq_true]
  exact ⟨d, hd, decide_eq_true rfl⟩

theorem knows_of_isSome_slot? (hc : (h.slot? (.cls c)).isSome) : h.Knows c := by
  rw [slot?, Option.isSome_map, List.findIdx?_isSome, List.any_eq_true] at hc
  obtain ⟨d, hd, heq⟩ := hc
  exact ⟨d, hd, of_decide_eq_true heq⟩

/-- Where no two classes have one identity, each is found under its own. -/
theorem class?_of_mem (hids : (h.classes.map ClassOf.id).Nodup) {d : ClassDecl} (hd : d ∈ h.classes) :
    h.class? d.id = some d := by
  cases he : h.class? d.id with
  | none => simpa using List.find?_eq_none.1 he d hd
  | some e =>
    have hid : e.id = d.id := by simpa using List.find?_some he
    rw [List.inj_on_of_nodup_map hids (List.mem_of_find?_eq_some he) hd hid]

end Heap

theorem Value.cls_mem_owned {v : Value} {c : ClassId} : .cls c ∈ v.owned ↔ v = .cls c := by
  constructor
  · intro hc
    cases v with
    | cls c' =>
      cases List.mem_singleton.1 hc
      rfl
    | obj a =>
      cases a with
      | owned o => cases List.mem_singleton.1 hc
      | shared o => cases hc
    | _ => cases hc
  · rintro rfl
    exact List.mem_singleton_self _

namespace Machine

variable {m : Machine} {c : ClassId}

/-- A class that is found behind a value is the value itself, or an object owns it. -/
theorem owned_of_follow {v : Value} {seen xs : List String} (h : m.follow v seen xs = .ok (.cls c)) :
    v = .cls c ∨ ∃ o, m.heap.Owns (.object o) (.cls c) := by
  induction xs generalizing v seen with
  | nil => exact .inl (Except.ok.inj h)
  | cons x xs ih =>
    cases v with
    | obj a =>
      rw [follow] at h
      cases ho : m.resolve a with
      | none =>
        rw [ho] at h
        cases h
      | some o =>
        rw [ho, Option.bind_some] at h
        cases hf : m.heap.field? o x with
        | none =>
          rw [hf] at h
          cases h
        | some w =>
          rw [hf] at h
          rcases ih h with rfl | howner
          · refine .inr ⟨o, (Heap.owns_object (lt_size_of_field? hf)).2 (.inr ?_)⟩
            exact List.mem_flatMap.2 ⟨_, Scope.mem_of_get? hf, List.mem_singleton_self _⟩
          · exact .inr howner
    | _ => cases h

/-- A class that is read under a path is owned by the scope or by an object. -/
theorem owned_of_read {path : List String} (h : m.read path = .ok (.cls c)) :
    .cls c ∈ m.scope.owned ∨ ∃ o, m.heap.Owns (.object o) (.cls c) := by
  cases path with
  | nil => cases h
  | cons x xs =>
    rw [read] at h
    cases hx : m.scope.get? x with
    | none =>
      rw [hx] at h
      cases h
    | some u =>
      rw [hx] at h
      dsimp only at h
      cases hf : m.follow u [x] xs with
      | error name =>
        rw [hf] at h
        cases h
      | ok w =>
        rw [hf] at h
        have hw : w = .cls c := by
          cases w with
          | obj a =>
            cases a with
            | owned o => cases h
            | shared o =>
              change (if m.live (.object o) = true then _ else _) = _ at h
              split at h <;> cases h
          | _ => cases h <;> rfl
        rw [hw] at hf
        rcases owned_of_follow hf with rfl | howner
        · exact .inl (List.mem_flatMap.2 ⟨_, Scope.mem_of_get? hx, List.mem_singleton_self _⟩)
        · exact .inr howner

/-! ### What is owned is there -/

/-- All classes that something owns are on the heap, and so are those that a method on it defines. -/
structure Grounded (m : Machine) : Prop where
  roots : ∀ c, .cls c ∈ m.roots → m.heap.Knows c
  owned : ∀ e c, m.heap.Owns e (.cls c) → m.heap.Knows c
  methods : ∀ d ∈ m.heap.classes, ∀ method ∈ d.methods, ∀ e ∈ method.body.classes, e ∈ m.heap.classes

/-- A machine of a run from `b`: nothing has been done to classes and to trees, and all that is owned is on the
heap. -/
structure Continues (b m : Machine) : Prop where
  pinned : m.pinned = b.pinned
  classes : m.heap.classes = b.heap.classes
  grounded : m.Grounded

namespace Continues

variable {b m m' : Machine}

theorem knows (h : b.Continues m) (hc : m.heap.Knows c) : b.heap.Knows c := by
  rwa [Heap.Knows, h.classes] at hc

theorem knows' (h : b.Continues m) (hc : b.heap.Knows c) : m.heap.Knows c := by
  rwa [Heap.Knows, h.classes]

/-- A machine with the heap of one of the run, whose roots are those of such machines. -/
theorem of_roots (h : b.Continues m) (hpinned : m'.pinned = m.pinned) (hheap : m'.heap = m.heap)
    (hroots : ∀ c, .cls c ∈ m'.roots → b.heap.Knows c) : b.Continues m' := by
  refine ⟨hpinned.trans h.pinned, by rw [hheap, h.classes], fun c hc => ?_, ?_, ?_⟩
  · rw [hheap]
    exact h.knows' (hroots c hc)
  · rw [hheap]
    exact h.grounded.owned
  · rw [hheap]
    exact h.grounded.methods

theorem of_root (h : b.Continues m) (hc : .cls c ∈ m.roots) : b.heap.Knows c := h.knows (h.grounded.roots c hc)

/-- A run keeps all classes that something owns on the heap. -/
theorem invariant (b : Machine) :
    Invariant b.Continues (fun v => ∀ c, v = .cls c → b.heap.Knows c) (fun _ => True)
      fun n => ∀ d ∈ n.classes, d ∈ b.heap.classes where
  plain _ hv c hc := absurd hc (hv c)
  hold {m v} hm hv := by
    refine hm.of_roots rfl rfl fun c hc => ?_
    rcases mem_roots.1 hc with hpin | ⟨u, hu, hown⟩ | hrest
    · exact hm.of_root (mem_roots.2 (.inl hpin))
    · rcases List.mem_cons.1 hu with rfl | hu
      · exact hv c (Value.cls_mem_owned.1 hown)
      · exact hm.of_root (mem_roots.2 (.inr (.inl ⟨u, hu, hown⟩)))
    · exact hm.of_root (mem_roots.2 (.inr (.inr hrest)))
  unhold {m m'} hm hm' := by
    refine hm'.of_roots rfl rfl fun c hc => ?_
    rcases mem_roots.1 hc with hpin | hheld | hrest
    · exact hm'.of_root (mem_roots.2 (.inl hpin))
    · exact hm.of_root (mem_roots.2 (.inr (.inl hheld)))
    · exact hm'.of_root (mem_roots.2 (.inr (.inr hrest)))
  enter {m o args} params hm _ hargs := by
    refine hm.of_roots rfl rfl fun c hc => ?_
    rcases mem_roots.1 hc with hpin | hheld | hframe | ⟨s, hs, hown⟩
    · exact hm.of_root (mem_roots.2 (.inl hpin))
    · exact hm.of_root (mem_roots.2 (.inr (.inl hheld)))
    · obtain ⟨⟨x, v⟩, hb, hown⟩ := List.mem_flatMap.1 hframe
      rcases Scope.mem_frame hb with rfl | hmem
      · cases hown
      · exact hargs v hmem c (Value.cls_mem_owned.1 hown)
    · rcases List.mem_cons.1 hs with rfl | hs
      · exact hm.of_root (mem_roots.2 (.inr (.inr (.inl hown))))
      · exact hm.of_root (mem_roots.2 (.inr (.inr (.inr ⟨s, hs, hown⟩))))
  leave {m m'} hm hm' := by
    refine hm'.of_roots rfl rfl fun c hc => ?_
    rcases mem_roots.1 hc with hpin | hheld | hscopes
    · exact hm'.of_root (mem_roots.2 (.inl hpin))
    · exact hm'.of_root (mem_roots.2 (.inr (.inl hheld)))
    · exact hm.of_root (mem_roots.2 (.inr (.inr hscopes)))
  trace _ hm := hm.of_roots rfl rfl fun _ hc => hm.of_root hc
  sink _ hm := hm.of_roots rfl rfl fun _ hc => hm.of_root hc
  setName {m} x v hm hv := by
    refine hm.of_roots rfl rfl fun c hc => ?_
    rcases mem_roots.1 hc with hpin | hheld | hscope | hcallers
    · exact hm.of_root (mem_roots.2 (.inl hpin))
    · exact hm.of_root (mem_roots.2 (.inr (.inl hheld)))
    · rcases Scope.mem_owned_set hscope with hown | hold
      · exact hv c (Value.cls_mem_owned.1 hown)
      · exact hm.of_root (mem_roots.2 (.inr (.inr (.inl hold))))
    · exact hm.of_root (mem_roots.2 (.inr (.inr (.inr hcallers))))
  resolve _ _ _ := nofun
  read {m path v} hm hread c hc := by
    subst hc
    rcases owned_of_read hread with hscope | ⟨o, hown⟩
    · exact hm.of_root (mem_roots.2 (.inr (.inr (.inl hscope))))
    · exact hm.knows (hm.grounded.owned _ c hown)
  error _ := trivial
  create {m} cls hm hlive := by
    refine ⟨⟨hm.pinned, hm.classes, hm.grounded.roots, fun e c hown => ?_, hm.grounded.methods⟩, nofun⟩
    rcases Heap.owns_allocate hown with hold | ⟨-, heq⟩
    · exact hm.grounded.owned e c hold
    · cases heq
      exact (root_or_isSome_of_live hlive).elim (hm.grounded.roots cls) Heap.knows_of_isSome_slot?
  setField {m o} f v hm _ hv := by
    refine ⟨hm.pinned, hm.classes, hm.grounded.roots, fun e c hown => ?_, hm.grounded.methods⟩
    rcases Heap.owns_setField hown with hold | ⟨-, hmem⟩
    · exact hm.grounded.owned e c hold
    · exact hm.knows' (hv c (Value.cls_mem_owned.1 hmem))
  cls {span d} hd c heq := by
    cases heq
    refine ⟨d, hd d ?_, rfl⟩
    rw [Node.classes_eq]
    exact List.mem_append_right _ (List.mem_singleton_self d)
  parts {n c} hn hc d hd := by
    refine hn d ?_
    rw [Node.classes_eq]
    exact List.mem_append_left _ (List.mem_flatMap.2 ⟨c, Node.mem_children_of_mem_parts hc, hd⟩)
  body hm hfound := by
    obtain ⟨d, hd, hmethod⟩ := Heap.exists_of_findMethod? hfound
    refine ⟨fun e he => ?_, .inr fun _ _ => trivial⟩
    rw [← hm.classes]
    exact hm.grounded.methods d hd _ hmethod e he

end Continues

/-! ### Who lives as long as whom -/

/-- Classes live as long as it takes: those of the trees at hand, of which `tree` is the list, and those of live
instances, subclasses and classes in whose methods they are defined.  Where nothing owns itself, a class is
alive just if a line of owners leads to it. -/
structure Lifetimes (tree : List ClassId) (m : Machine) : Prop where
  tree : m.pinned = tree
  ids : (m.heap.classes.map ClassOf.id).Nodup
  instances : ∀ o < m.heap.fresh, m.live (.object o) = true → m.live (.cls (m.heap.classOf o)) = true
  subclasses : ∀ d ∈ m.heap.classes, m.live (.cls d.id) = true → ∀ p ∈ d.parent, m.live (.cls p) = true
  enclosing : ∀ d ∈ m.heap.classes, m.live (.cls d.id) = true →
    ∀ e, ClassOf.Encloses d e → m.live (.cls e.id) = true
  reachable : m.heap.Acyclic → ∀ c, m.live (.cls c) = true ↔ m.Kept (.cls c)

namespace Grounded

variable (h : m.Grounded)
include h

/-- A class lives as long as what owns it. -/
theorem live_of_owns {e : Entity} (he : m.live e = true) (hown : m.heap.Owns e (.cls c)) :
    m.live (.cls c) = true :=
  Machine.live_of_owns he hown (Heap.isSome_slot?_of_knows (h.owned e c hown))

/-- Where nothing owns itself, a class is alive just if a line of owners leads to it. -/
theorem live_iff_kept (hring : m.heap.Acyclic) : m.live (.cls c) = true ↔ m.Kept (.cls c) := by
  refine ⟨kept_of_live hring, fun hkept => live_of_kept hkept (Heap.isSome_slot?_of_knows ?_)⟩
  obtain ⟨r, hr, hpath⟩ := hkept
  rcases ReflTransGen.cases_tail hpath with heq | ⟨e, -, hown⟩
  · exact h.roots c (heq ▸ hr)
  · exact h.owned e c hown

/-- The classes of a tree live as long as the outer ones among them. -/
theorem live_of_outerClasses (hids : (m.heap.classes.map ClassOf.id).Nodup) (n : Node)
    (hn : ∀ d ∈ n.classes, d ∈ m.heap.classes) (houter : ∀ d ∈ n.outerClasses, m.live (.cls d.id) = true) :
    ∀ e ∈ n.classes, m.live (.cls e.id) = true := by
  induction n using Node.induction with
  | step n ih =>
    rw [Node.classes_eq, List.forall_mem_append] at hn
    obtain ⟨hbelow, hself⟩ := hn
    intro e he
    rw [Node.classes_eq, List.mem_append, List.mem_flatMap] at he
    cases n with
    | classDef span d =>
      rw [Node.outerClasses_classDef, List.forall_mem_singleton] at houter
      rcases he with ⟨c, hc, he⟩ | he
      · obtain ⟨method, hmethod, rfl⟩ := List.mem_map.1 hc
        refine ih _ hc (fun x hx => hbelow x (List.mem_flatMap.2 ⟨_, hc, hx⟩)) (fun x hx => ?_) e he
        refine h.live_of_owns houter (Heap.owns_cls.2 ⟨d, Heap.class?_of_mem hids ?_, ?_⟩)
        · exact hself d (List.mem_singleton_self d)
        · refine List.mem_map.2 ⟨x.id, List.mem_append_right _ ?_, rfl⟩
          exact List.mem_flatMap.2 ⟨method, hmethod, List.mem_map_of_mem hx⟩
      · rw [List.mem_singleton.1 he]
        exact houter
    | _ =>
      rw [Node.outerClasses_eq rfl] at houter
      rcases he with ⟨c, hc, he⟩ | he
      · exact ih c hc (fun x hx => hbelow x (List.mem_flatMap.2 ⟨c, hc, hx⟩))
          (fun x hx => houter x (List.mem_flatMap.2 ⟨c, hc, hx⟩)) e he
      · cases he

theorem lifetimes (hids : (m.heap.classes.map ClassOf.id).Nodup) : m.Lifetimes m.pinned where
  tree := rfl
  ids := hids
  instances o ho hlive := h.live_of_owns hlive ((Heap.owns_object ho).2 (.inl rfl))
  subclasses d hd hlive p hp := by
    refine h.live_of_owns hlive (Heap.owns_cls.2 ⟨d, Heap.class?_of_mem hids hd, ?_⟩)
    exact List.mem_map.2 ⟨p, List.mem_append_left _ (Option.mem_toList.2 hp), rfl⟩
  enclosing d hd hlive e he := by
    obtain ⟨method, hmethod, span, hhas⟩ := he
    refine h.live_of_outerClasses hids method.body (h.methods d hd method hmethod) (fun x hx => ?_) e
      (Node.mem_classes_iff.2 ⟨span, hhas⟩)
    refine h.live_of_owns hlive (Heap.owns_cls.2 ⟨d, Heap.class?_of_mem hids hd, ?_⟩)
    refine List.mem_map.2 ⟨x.id, List.mem_append_right _ ?_, rfl⟩
    exact List.mem_flatMap.2 ⟨method, hmethod, List.mem_map_of_mem hx⟩
  reachable hring _ := h.live_iff_kept hring

end Grounded

end Machine

namespace Exec

open Machine

/-- What becomes of a node that makes an instance, with fuel for `n` more steps in one another: its class is
found if a line of owners leads to it, and otherwise the node fails at once, and nothing is changed. -/
def FindsOwned (limit : Option Nat) (n : Nat) : Node → Machine → Prop
  | .new span cls args, m => m.heap.Acyclic →
    (m.Kept (.cls cls) →
      m.heap.Knows cls ∧ exec limit (n + 1) (.new span cls args) m = make limit n cls args span m) ∧
      (¬ m.Kept (.cls cls) →
        exec limit (n + 1) (.new span cls args) m = (.error (.error (.raised (.nameError cls.name) span)), m))
  | _, _ => True

/-- Watches that classes live as long as they should, and that just those are found that something owns. -/
def lifetimeWatch (limit : Option Nat) (tree : List ClassId) : Watch where
  before n node m := m.Lifetimes tree ∧ FindsOwned limit (n - 1) node m
  after _ _ _ m := m.Lifetimes tree
  calling _ _ _ _ _ m := m.Lifetimes tree
  called _ _ _ m := m.Lifetimes tree
  showing _ _ m := m.Lifetimes tree

/-- A node that makes an instance of a class that is dead fails at once. -/
theorem exec_new_of_not_live {m : Machine} {cls : ClassId} (h : ¬ m.live (.cls cls) = true) (limit : Option Nat)
    (n : Nat) (span : Span) (args : List Node) :
    exec limit (n + 1) (.new span cls args) m = (.error (.error (.raised (.nameError cls.name) span)), m) := by
  show (if m.live (.cls cls) = true then make limit n cls args span
    else raise (.nameError cls.name) span) m = _
  rw [if_neg h]
  rfl

theorem findsOwned {m : Machine} (h : m.Grounded) (limit : Option Nat) (n : Nat) (node : Node) :
    FindsOwned limit n node m := by
  cases node with
  | new span cls args =>
    intro hring
    rw [← h.live_iff_kept hring]
    refine ⟨fun hlive => ⟨?_, exec_new_of_live hlive limit n span args⟩,
      fun hdead => exec_new_of_not_live hdead limit n span args⟩
    exact (root_or_isSome_of_live hlive).elim (h.roots cls) Heap.knows_of_isSome_slot?
  | _ => trivial

end Exec

/-! ### Sessions -/

namespace Node

/-- The classes defined in the methods of a class of a tree are classes of the tree. -/
theorem classes_subset_of_method {root : Node} {d : ClassDecl} (hd : d ∈ root.classes) {method : Method}
    (hm : method ∈ d.methods) : ∀ e ∈ method.body.classes, e ∈ root.classes := by
  intro e he
  obtain ⟨span, hroot⟩ := mem_classes_iff.1 hd
  obtain ⟨espan, hbody⟩ := mem_classes_iff.1 he
  exact mem_classes_iff.2 ⟨espan, hroot.trans (.child (List.mem_map_of_mem hm) hbody)⟩

end Node

theorem Heap.knows_addClasses {h : Heap} {ds : List ClassDecl} {c : ClassId} :
    (h.addClasses ds).Knows c ↔ c ∈ ds.map ClassOf.id ∨ h.Knows c := by
  simp [Knows, addClasses, or_and_right, exists_or]

namespace Machine

variable {m : Machine} {root : Node}

/-- Where a tree is loaded whose classes are in order, all that is owned is still on the heap. -/
theorem Grounded.load (h : m.Grounded) (hroot : root.ClassesOrdered) : (m.load root).Grounded where
  roots c hc := by
    rw [Machine.load, Heap.knows_addClasses]
    rcases mem_roots.1 hc with ⟨c', hpin, heq⟩ | hrest
    · cases heq
      exact (List.mem_append.1 hpin).imp_right fun hold => h.roots c (mem_roots.2 (.inl ⟨c, hold, rfl⟩))
    · exact .inr (h.roots c (mem_roots.2 (.inr hrest)))
  owned e c hown := by
    rw [Machine.load, Heap.knows_addClasses]
    rcases Heap.owns_addClasses hroot hown with ⟨c₁, c₂, rfl, heq, hsub⟩ | ⟨-, hold⟩
    · cases heq
      exact .inl (hsub.subset List.mem_cons_self)
    · exact .inr (h.owned e c hold)
  methods d hd method hm e he := by
    rcases List.mem_append.1 hd with hnew | hold
    · rw [List.mem_reverse] at hnew
      exact List.mem_append_left _ (List.mem_reverse.2 (Node.classes_subset_of_method hnew hm e he))
    · exact List.mem_append_right _ (h.methods d hold method hm e he)

/-- Where something owns less from outside the heap, all that is owned is still on the heap. -/
theorem Grounded.of_roots (h : m.Grounded) {m' : Machine} (hheap : m'.heap = m.heap)
    (hroots : ∀ c, .cls c ∈ m'.roots → .cls c ∈ m.roots) : m'.Grounded := by
  refine ⟨fun c hc => ?_, ?_, ?_⟩
  · rw [hheap]
    exact h.roots c (hroots c hc)
  · rw [hheap]
    exact h.owned
  · rw [hheap]
    exact h.methods

theorem grounded_empty : ({} : Machine).Grounded where
  roots _ := nofun
  owned e c hown := absurd (TransGen.single hown) fun hpath => by
    obtain ⟨i, hi⟩ := Heap.exists_slot_of_owns hown
    exact absurd (Heap.slot?_lt hi) (Nat.not_lt_zero i)
  methods _ := nofun

end Machine

namespace Session

open Machine Exec Grammar

/-- The machine that the tree of the next program is run on in a session. -/
def loaded (s : Session) (sink : Sink) (root : Node) : Machine :=
  ({ s.machine with sink := sink } : Machine).load root

/-- The sessions that there are: texts have been run one after another, each with a sink and a limit of its own,
the tree of each has gone behind it, and globals may have been freed in between. -/
inductive Reached : Session → Prop
  | start : Reached {}
  | reject {s : Session} {text : String} {f : Failure} (h : Reached s)
      (hfail : Node.ofText (s.count + 1) text = .error f) : Reached { s with count := s.count + 1 }
  | run {s : Session} {text : String} {root : Node} {sink : Sink} {limit : Option Nat} {fuel : Nat}
      {r : Except RuntimeError Value} {m : Machine} (h : Reached s)
      (hroot : Node.ofText (s.count + 1) text = .ok root)
      (hrun : (s.loaded sink root).interpret limit fuel root = (some r, m)) : Reached ⟨m.unload, s.count + 1⟩
  | remove {s : Session} (h : Reached s) (name : String) : Reached (s.remove name).2

/-- A session between two programs: all that is owned is owned by the globals, and is on the heap. -/
structure Sound (s : Session) : Prop where
  pinned : s.machine.pinned = []
  held : s.machine.held = []
  callers : s.machine.callers = []
  grounded : s.machine.Grounded
  ids : (s.machine.heap.classes.map ClassOf.id).Nodup
  units : ∀ d ∈ s.machine.heap.classes, d.id.unit ≤ s.count

namespace Sound

variable {s : Session} (h : s.Sound) {text : String} {root : Node}
  (hroot : Node.ofText (s.count + 1) text = .ok root) (sink : Sink)
include h hroot

theorem grounded_loaded : (s.loaded sink root).Grounded := by
  obtain ⟨ts, -, hts⟩ := Node.ofText_eq_ok_iff.1 hroot
  obtain ⟨b, hrun⟩ := ofTokens_run hts
  have hstart : ({ s.machine with sink := sink } : Machine).Grounded := h.grounded.of_roots rfl fun _ => id
  exact hstart.load hrun.classesOrdered

/-- No two classes of a session have one identity: those of a program are of its own unit. -/
theorem ids_loaded : ((s.loaded sink root).heap.classes.map ClassOf.id).Nodup := by
  obtain ⟨ts, -, hts⟩ := Node.ofText_eq_ok_iff.1 hroot
  obtain ⟨b, hrun⟩ := ofTokens_run hts
  show ((root.classes.reverse ++ s.machine.heap.classes).map ClassOf.id).Nodup
  rw [List.map_append, List.nodup_append, List.map_reverse, List.nodup_reverse]
  refine ⟨hrun.classesOrdered.ids, h.ids, ?_⟩
  rintro _ hnew c hold rfl
  obtain ⟨d, hd, rfl⟩ := List.mem_map.1 (List.mem_reverse.1 hnew)
  obtain ⟨e, he, heq⟩ := List.mem_map.1 hold
  have hunit := h.units e he
  rw [heq, hrun.unit_of_mem_classes d hd] at hunit
  exact Nat.not_succ_le_self s.count hunit

theorem units_loaded : ∀ d ∈ (s.loaded sink root).heap.classes, d.id.unit ≤ s.count + 1 := by
  obtain ⟨ts, -, hts⟩ := Node.ofText_eq_ok_iff.1 hroot
  obtain ⟨b, hrun⟩ := ofTokens_run hts
  intro d hd
  rcases List.mem_append.1 hd with hnew | hold
  · exact Nat.le_of_eq (hrun.unit_of_mem_classes d (List.mem_reverse.1 hnew))
  · exact Nat.le_succ_of_le (h.units d hold)

omit hroot in
theorem pinned_loaded : (s.loaded sink root).pinned = root.classes.map ClassOf.id := by
  show root.classes.map ClassOf.id ++ s.machine.pinned = _
  rw [h.pinned, List.append_nil]

/-- A program is run with all that is owned on the heap. -/
theorem continues (limit : Option Nat) (fuel : Nat) :
    (s.loaded sink root).Continues (exec limit fuel root (s.loaded sink root)).2 := by
  refine ((Continues.invariant _).exec limit fuel root (fun d hd => ?_) ?_).1
  · exact List.mem_append_left _ (List.mem_reverse.2 hd)
  · exact ⟨rfl, rfl, h.grounded_loaded hroot sink⟩

theorem lifetimes_throughout (limit : Option Nat) (fuel : Nat) :
    Throughout (lifetimeWatch limit (root.classes.map ClassOf.id)) limit fuel root (s.loaded sink root) := by
  have hids := h.ids_loaded hroot sink
  have hlifetimes {m : Machine} (hm : (s.loaded sink root).Continues m) :
      m.Lifetimes (root.classes.map ClassOf.id) := by
    have hpinned : m.pinned = root.classes.map ClassOf.id := hm.pinned.trans (h.pinned_loaded sink)
    rw [← hpinned]
    refine hm.grounded.lifetimes ?_
    rw [hm.classes]
    exact hids
  refine (Continues.invariant (s.loaded sink root)).throughout ?_ limit fuel (fun d hd => ?_) ?_
  · exact {
      before := fun n node m hm => ⟨hlifetimes hm, findsOwned hm.grounded limit (n - 1) node⟩
      after := fun _ _ _ m hm _ => hlifetimes hm
      calling := fun _ _ _ _ _ m hm _ _ => hlifetimes hm
      called := fun _ _ _ m hm _ => hlifetimes hm
      showing := fun _ _ m hm _ => hlifetimes hm }
  · exact List.mem_append_left _ (List.mem_reverse.2 hd)
  · exact ⟨rfl, rfl, h.grounded_loaded hroot sink⟩

end Sound

/-- All sessions that there are own nothing but what is on the heap. -/
theorem Reached.sound {s : Session} (h : s.Reached) : s.Sound := by
  induction h with
  | start => exact ⟨rfl, rfl, rfl, grounded_empty, List.nodup_nil, nofun⟩
  | reject _ _ ih => exact { ih with units := fun d hd => Nat.le_succ_of_le (ih.units d hd) }
  | @run s text root sink limit fuel r m _ hroot hrun ih =>
    have hm : (exec limit fuel root (s.loaded sink root)).2 = m := congrArg Prod.snd hrun
    have hcont := ih.continues hroot sink limit fuel
    have hunwound := unwound_exec limit fuel root (s.loaded sink root)
    rw [hm] at hcont hunwound
    refine ⟨rfl, hunwound.held.trans ih.held, hunwound.callers.trans ih.callers, ?_, ?_, ?_⟩
    · refine hcont.grounded.of_roots rfl fun c hc => mem_roots.2 ?_
      rcases mem_roots.1 hc with ⟨c', hpin, -⟩ | hrest
      · cases hpin
      · exact .inr hrest
    · show (m.heap.classes.map ClassOf.id).Nodup
      rw [hcont.classes]
      exact ih.ids_loaded hroot sink
    · show ∀ d ∈ m.heap.classes, d.id.unit ≤ s.count + 1
      rw [hcont.classes]
      exact ih.units_loaded hroot sink
  | @remove s _ name ih =>
    refine { ih with grounded := ih.grounded.of_roots rfl fun c hc => mem_roots.2 ?_ }
    refine (mem_roots.1 hc).imp_right (Or.imp_right (Or.imp_left fun hscope => ?_))
    obtain ⟨b, hb, hown⟩ := List.mem_flatMap.1 hscope
    exact List.mem_flatMap.2 ⟨b, List.mem_of_mem_filter hb, hown⟩

/-- Where a text has been run in a session, the session behind its tree is one that there is. -/
theorem Reached.of_run {s s' : Session} {text : String} {limit : Option Nat} {fuel : Nat}
    {r : Except Failure SessionStep} (h : s.Reached) (hrun : s.run text limit fuel = some (r, s')) :
    s'.forget.Reached := by
  rw [Session.run] at hrun
  cases hroot : Node.ofText (s.count + 1) text with
  | error f =>
    simp only [hroot] at hrun
    cases hrun
    have hunload : s.machine.unload = s.machine := by
      rw [unload, ← h.sound.pinned]
    rw [forget, hunload]
    exact .reject h hroot
  | ok root =>
    simp only [hroot] at hrun
    obtain ⟨v, hv, heq⟩ := Option.map_eq_some_iff.1 hrun
    cases heq
    exact .run h hroot (Prod.ext hv rfl)

/-- In a session whatever programs have been run, and whatever globals have been freed: between programs nothing is
owned but by globals, and classes live as long as what owns them; and while a program is run, with its classes at
hand, this holds at every turn, where a node that makes an instance of a class finds it just if a line of
owners leads to the class from the tree, from a scope or from a value in use, and fails before all else if not. -/
theorem Reached.classes_owned {s : Session} (h : s.Reached) :
    s.machine.held = [] ∧ s.machine.callers = [] ∧ s.machine.Lifetimes [] ∧
      ∀ text root, Node.ofText (s.count + 1) text = .ok root → ∀ sink limit fuel,
        Throughout (lifetimeWatch limit (root.classes.map ClassOf.id)) limit fuel root (s.loaded sink root) := by
  have hs := h.sound
  refine ⟨hs.held, hs.callers, ?_, fun text root hroot sink limit fuel => ?_⟩
  · rw [← hs.pinned]
    exact hs.grounded.lifetimes hs.ids
  · exact hs.lifetimes_throughout hroot sink limit fuel

/-- A class outlives its program and the global of its name, as long as it has an instance, whose method may then
still make another. -/
theorem Reached.classes_owned_instance :
    let front := "class A :\n  def f ( self ) :\n    return A ( )\na = A ( )\n"
    let back := "a . f ( )\n"
    ∃ root₁ root₂ m, Node.ofText 1 front = .ok root₁ ∧ Node.ofText 2 back = .ok root₂ ∧
      (loaded {} {} root₁).interpret none 4 root₁ = (some (.ok (.obj (.owned 0))), m) ∧
        let s := (Session.remove ⟨m.unload, 1⟩ "A").2
        s.Reached ∧ s.machine.scope.get? "A" = none ∧ s.machine.live (.cls ⟨1, "A"⟩) = true ∧
          Throughout (lifetimeWatch none []) none 9 root₂ (s.loaded {} root₂) ∧
            ((s.loaded {} root₂).interpret none 9 root₂).1 = some (.ok (.obj (.owned 1))) := by
  intro front back
  let makes : Node := .methodBody {} (.block {} [.ret {} (.new {} ⟨1, "A"⟩ [])])
  let A : ClassDecl := ⟨⟨1, "A"⟩, none, [⟨"f", [], makes⟩]⟩
  let n₁ : Node := .block {} [.classDef {} A, .assign {} "a" (.new {} A.id [])]
  let n₂ : Node := .block {} [.call {} (.lookup {} ["a"]) "f" []]
  have hnew {known : Set String} (hA : "A" ∈ known) : Expression 1 known (.new {} A.id []) :=
    .new hA (by decide) (List.forall_mem_nil _)
  have hn₁ : n₁.WellFormed 1 :=
    ⟨_, _, _, rfl, .statements
      (@Tree.classDef 1 {} _ {} "A" none _ (by decide) (Set.notMem_empty _) nofun (List.cons_ne_nil _ _)
        (.methods (.method (by decide) (List.forall_mem_nil _) (List.cons_ne_nil _ _)
          (.statements (.ret (hnew (Set.mem_insert _ _))) .noStatements)) .noMethods))
      (.statements (.assign (by decide) (hnew (Set.mem_insert _ _))) .noStatements)⟩
  have hn₂ : n₂.WellFormed 2 :=
    ⟨_, _, _, rfl, .statements
      (.expr (.call (.lookup (by decide) (by decide)) (by decide) (List.forall_mem_nil _))) .noStatements⟩
  have hfront : n₁.render = front := by
    simp only [n₁, A, makes, Node.render, Node.lines, Node.words, List.flatMap_cons, List.map_cons, List.map_nil,
      List.flatMap_nil]
    decide
  have hback : n₂.render = back := by
    simp only [n₂, Node.render, Node.lines, Node.words, List.flatMap_cons, List.map_nil, List.flatMap_nil]
    decide
  obtain ⟨root₁, h₁, hbare₁⟩ := ofText_render hn₁
  obtain ⟨root₂, h₂, hbare₂⟩ := ofText_render hn₂
  rw [hfront] at h₁
  rw [hback] at h₂
  have hclasses₂ : n₂.classes = [] := by
    simp [Node.classes_eq, Node.children, Node.defines, n₂]
  let m₁ : Machine := ((Machine.load {} n₁).interpret none 4 n₁).2
  let m₂ : Machine := { m₁ with scope := m₁.scope.remove "A", pinned := [] }
  obtain ⟨hrun₁, hscope, hobjects, hrun₂⟩ :
      ((Machine.load {} n₁).interpret none 4 n₁).1 = some (.ok (.obj (.owned 0))) ∧
        m₂.scope = ⟨[("a", .obj (.owned 0))]⟩ ∧
          m₂.heap.objects = #[⟨A.id, ⟨[("self", .obj (.shared 0))]⟩⟩] ∧
            (({ m₂ with sink := {} }.load n₂).interpret none 9 n₂).1 = some (.ok (.obj (.owned 1))) := by
    dsimp only [n₂, m₂, m₁, n₁, A, makes]
    decide +kernel
  have hload₁ : (loaded {} {} root₁).Akin (Machine.load {} n₁) := (Akin.refl {}).load hbare₁
  let m : Machine := ((loaded {} {} root₁).interpret none 4 root₁).2
  have hm : m.Akin m₁ := (hload₁.interpret hbare₁ none 4).2
  have hend : (loaded {} {} root₁).interpret none 4 root₁ = (some (.ok (.obj (.owned 0))), m) :=
    Prod.ext (hload₁.interpret_eq_ok hbare₁ hrun₁) rfl
  let s : Session := (Session.remove ⟨m.unload, 1⟩ "A").2
  have hs : s.Reached := (Reached.start.run h₁ hend).remove "A"
  have hs₂ : s.machine.Akin m₂ :=
    { hm with
      scope := by
        show m.scope.remove "A" = _
        rw [hm.scope]
      pinned := fun _ => .rfl }
  obtain ⟨-, -, hlife, hthroughout⟩ := hs.classes_owned
  have hobject : s.machine.live (.object 0) = true := by
    refine live_of_root (mem_roots.2 (.inr (.inr (.inl ?_))))
    rw [hs₂.scope, hscope]
    exact List.mem_singleton_self _
  have hfresh : s.machine.heap.fresh = 1 ∧ s.machine.heap.classOf 0 = ⟨1, "A"⟩ := by
    rw [Heap.fresh, Heap.classOf, hs₂.heap.objects, hobjects]
    exact ⟨rfl, rfl⟩
  have hcls := hlife.instances 0 (hfresh.1 ▸ Nat.one_pos) hobject
  rw [hfresh.2] at hcls
  have hback₂ := hthroughout back root₂ h₂ {} none 9
  rw [Node.ids_classes_of_bare hbare₂, hclasses₂] at hback₂
  have hempty : { s.machine with sink := {} : Machine }.Akin { m₂ with sink := {} } := { hs₂ with sink := rfl }
  have hload₂ : (s.loaded {} root₂).Akin ({ m₂ with sink := {} }.load n₂) := hempty.load hbare₂
  refine ⟨root₁, root₂, m, h₁, h₂, hend, hs, ?_, hcls, hback₂, hload₂.interpret_eq_ok hbare₂ hrun₂⟩
  show s.machine.scope.get? "A" = none
  rw [hs₂.scope, hscope]
  rfl

end Session

end ClassScript

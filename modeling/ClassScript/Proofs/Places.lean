import ClassScript.Proofs.Bare
import ClassScript.Proofs.Handles
import ClassScript.Proofs.Simulation

/-!
# Places play no part in a run

Machines are akin if they are the same but for the places in the methods of their classes, and for the order
in which classes are at hand and values are held.  The same things are alive there.  Main statement: trees
that are the same up to their spans have the same runs on such machines, but for the places of errors
(`alike_exec`).
-/

namespace ClassScript

/-! ### Heaps -/

theorem ClassOf.own?_bare (d : ClassDecl) (name : String) :
    d.bare.own? name = (d.own? name).map MethodOf.bare :=
  List.find?_map

theorem methodNamed?_bare (ds : List ClassDecl) (c : ClassId) (name : String) :
    methodNamed? (ds.map ClassOf.bare) c name = (methodNamed? ds c name).map MethodOf.bare := by
  induction ds generalizing c with
  | nil => rfl
  | cons d older ih =>
    rw [List.map_cons, methodNamed?, methodNamed?, ClassOf.own?_bare, show d.bare.id = d.id from rfl,
      show d.bare.parent = d.parent from rfl]
    split
    · cases d.own? name with
      | some method => rfl
      | none =>
        cases d.parent with
        | some p => exact ih p
        | none => rfl
    · exact ih c

namespace Heap

/-- Heaps with the same objects, and with classes that are the same but for places. -/
structure Akin (h h' : Heap) : Prop where
  objects : h.objects = h'.objects
  classes : h.classes.map ClassOf.bare = h'.classes.map ClassOf.bare

namespace Akin

variable {h h' : Heap} (ha : h.Akin h')
include ha

theorem length_classes : h.classes.length = h'.classes.length := by
  rw [← List.length_map ClassOf.bare, ha.classes, List.length_map]

theorem population : h.population = h'.population := by
  rw [Heap.population, Heap.population, ha.objects, ha.length_classes]

theorem slot? : h.slot? = h'.slot? := by
  funext e
  cases e with
  | object o => rw [Heap.slot?, Heap.slot?, ha.objects]
  | cls c =>
    have hfind (ds : List ClassDecl) :
        (ds.map ClassOf.bare).findIdx? (fun d => d.id = c) = ds.findIdx? fun d => d.id = c :=
      List.findIdx?_map
    rw [Heap.slot?, Heap.slot?, ha.objects, ← hfind, ha.classes, hfind]

theorem ownedAt (i : Nat) : h.ownedAt i = h'.ownedAt i := by
  have howned (ds : List ClassDecl) (i : Nat) :
      (ds[i]?).map ClassOf.owned = ((ds.map ClassOf.bare)[i]?).map ClassOf.owned := by
    rw [List.getElem?_map, Option.map_map]
    congr 1
    funext d
    exact congrArg (fun ids => (d.parent.toList ++ ids).map Entity.cls) d.nested_bare.symm
  rw [Heap.ownedAt, Heap.ownedAt, ha.objects, howned h.classes, ha.classes, ← howned]

theorem slotsAt : h.slotsAt = h'.slotsAt := by
  funext i
  rw [Heap.slotsAt, Heap.slotsAt, ha.ownedAt, ha.slot?]

/-- Methods of classes that are the same but for places are so, too. -/
theorem getMethod? (c : ClassId) (name : String) :
    (h.getMethod? c name).map MethodOf.bare = (h'.getMethod? c name).map MethodOf.bare := by
  rw [Heap.getMethod?, Heap.getMethod?, ← methodNamed?_bare, ha.classes, methodNamed?_bare]

end Akin

end Heap

/-- Of what is lost it only matters which things are roots. -/
theorem Release.lost_congr {owned : Nat → List Nat} {n : Nat} {roots roots' : List Nat}
    (h : ∀ i, i ∈ roots ↔ i ∈ roots') {i : Nat} (hi : Lost owned n roots i) : Lost owned n roots' i := by
  induction hi with
  | intro root _ ih => exact .intro (fun hr => root ((h _).2 hr)) ih

/-! ### Machines -/

namespace Machine

/-- The same things are alive on heaps that are akin if the same things are roots. -/
theorem live_congr {m m' : Machine} (hheap : m.heap.Akin m'.heap) (hroots : ∀ e, e ∈ m.roots ↔ e ∈ m'.roots) :
    m.live = m'.live := by
  -- roots agree as sets only, since classes may be pinned in another order
  funext e
  rw [Bool.eq_iff_iff]
  have hslots (i : Nat) : i ∈ m.roots.filterMap m.heap.slot? ↔ i ∈ m'.roots.filterMap m'.heap.slot? := by
    simp only [List.mem_filterMap, hroots, hheap.slot?]
  cases hs : m.heap.slot? e with
  | none =>
    have hs' : m'.heap.slot? e = none := by rw [← hheap.slot?, hs]
    rw [Machine.live, Machine.live, Heap.alive, Heap.alive, hs, hs', Bool.or_false, Bool.or_false,
      isRoot_iff, isRoot_iff, hroots]
  | some i =>
    have hs' : m'.heap.slot? e = some i := by rw [← hheap.slot?, hs]
    rw [live_iff_not_lost hs, live_iff_not_lost hs', hheap.slotsAt, hheap.population]
    exact not_congr ⟨Release.lost_congr hslots, Release.lost_congr fun i => (hslots i).symm⟩

/-- Machines that are the same but for places in the methods of their classes, and for the order in which
classes are at hand and values are held. -/
structure Akin (m m' : Machine) : Prop where
  scope : m.scope = m'.scope
  callers : m.callers = m'.callers
  depth : m.depth = m'.depth
  held : m.held.flatMap Value.owned = m'.held.flatMap Value.owned
  pinned : ∀ c, c ∈ m.pinned ↔ c ∈ m'.pinned
  heap : m.heap.Akin m'.heap
  sink : m.sink = m'.sink
  trace : m.trace = m'.trace

namespace Akin

variable {m m' m'' : Machine}

@[refl] theorem refl (m : Machine) : m.Akin m := ⟨rfl, rfl, rfl, rfl, fun _ => .rfl, ⟨rfl, rfl⟩, rfl, rfl⟩

theorem symm (h : m.Akin m') : m'.Akin m :=
  ⟨h.scope.symm, h.callers.symm, h.depth.symm, h.held.symm, fun c => (h.pinned c).symm,
    ⟨h.heap.objects.symm, h.heap.classes.symm⟩, h.sink.symm, h.trace.symm⟩

theorem trans (h : m.Akin m') (h' : m'.Akin m'') : m.Akin m'' :=
  ⟨h.scope.trans h'.scope, h.callers.trans h'.callers, h.depth.trans h'.depth, h.held.trans h'.held,
    fun c => (h.pinned c).trans (h'.pinned c),
    ⟨h.heap.objects.trans h'.heap.objects, h.heap.classes.trans h'.heap.classes⟩, h.sink.trans h'.sink,
    h.trace.trans h'.trace⟩

theorem mem_roots (h : m.Akin m') (e : Entity) : e ∈ m.roots ↔ e ∈ m'.roots := by
  simp only [roots, List.mem_append, List.mem_map, h.held, h.scope, h.callers, h.pinned]

/-- The same things are alive. -/
theorem live (h : m.Akin m') : m.live = m'.live :=
  live_congr h.heap h.mem_roots

/-- Of two calls that come to methods, both come to the same but for places. -/
theorem target?_bare (h : m.Akin m') {o : ObjId} {name : String} {args : List Value} {method method' : Method}
    (hf : method ∈ m.target? o name args) (hf' : method' ∈ m'.target? o name args) :
    method.body.bare = method'.body.bare := by
  have hclass : m.heap.classOf o = m'.heap.classOf o := by rw [Heap.classOf, Heap.classOf, h.heap.objects]
  have hm := h.heap.getMethod? (m'.heap.classOf o) name
  rw [target?, Heap.findMethod?, hclass] at hf
  rw [(Option.filter_eq_some_iff.1 hf).1, (Option.filter_eq_some_iff.1 hf').1, Option.map_some,
    Option.map_some, Option.some_inj] at hm
  exact congrArg MethodOf.body hm

theorem simulation : Simulation Akin where
  agree h := by
    refine ⟨h.scope, h.depth, h.sink, h.heap.objects, h.live, fun c name => ?_⟩
    have hm := congrArg (Option.map MethodOf.params) (h.heap.getMethod? c name)
    rwa [Option.map_map, Option.map_map] at hm
  hold v h := { h with held := congrArg (v.owned ++ ·) h.held }
  unhold h h' := { h' with held := h.held }
  enter o params args h :=
    { h with
      scope := rfl
      callers := congrArg₂ List.cons h.scope h.callers
      depth := congrArg (· + 1) h.depth }
  leave h h' := { h' with scope := h.scope, callers := h.callers, depth := congrArg (· - 1) h'.depth }
  told e h := { h with trace := congrArg (·.push e) h.trace }
  write text h := { h with sink := congrArg (·.write text) h.sink }
  create cls h := by
    have hfresh : ∀ {k k' : Heap}, k.Akin k' → (k.allocate cls).Akin (k'.allocate cls) := fun ha =>
      ⟨by rw [Heap.allocate, Heap.allocate, Heap.fresh, Heap.fresh, ha.objects], ha.classes⟩
    exact { h with heap := hfresh h.heap }
  setName x v h := { h with scope := congrArg (·.set x v) h.scope }
  setField o f v h := by
    have hset : ∀ {k k' : Heap}, k.Akin k' → (k.setField o f v).Akin (k'.setField o f v) := fun ha =>
      ⟨by rw [Heap.setField, Heap.setField, ha.objects], ha.classes⟩
    exact { h with heap := hset h.heap }

end Akin

end Machine

/-! ### Runs -/

theorem Node.bare_eq_mapParts (n : Node) : n.bare = n.mapParts {} bare := by
  cases n with
  | ifElse s c yes no => cases no <;> simp [mapParts]
  | _ => simp [mapParts]

namespace Exec

open Machine

variable {α : Type}

/-- Actions that do the same on machines that are akin, but for the places of errors. -/
abbrev Same (a b : Exec α) : Prop := Alike Akin (fun _ _ _ => True) a b

theorem EndsAlike.symm {r r' : Except Signal α} (h : EndsAlike (fun _ _ _ => True) r r') :
    EndsAlike (fun _ _ _ => True) r' r := by
  cases h with
  | ok x => exact .ok x
  | error hs =>
    cases hs with
    | returning v s s' => exact .error (.returning v s' s)
    | raised => exact .error (.raised trivial)
    | output text => exact .error (.output text)
    | exhausted => exact .error .exhausted

theorem EndsAlike.trans {r r' r'' : Except Signal α} (h : EndsAlike (fun _ _ _ => True) r r')
    (h' : EndsAlike (fun _ _ _ => True) r' r'') : EndsAlike (fun _ _ _ => True) r r'' := by
  cases h with
  | ok x => exact h'
  | error hs =>
    obtain - | hs' := h'
    cases hs with
    | returning v s s' =>
      cases hs'
      exact .error (.returning v _ _)
    | raised =>
      cases hs'
      exact .error (.raised trivial)
    | output text =>
      cases hs'
      exact .error (.output text)
    | exhausted =>
      cases hs'
      exact .error .exhausted

theorem Same.symm {a b : Exec α} (h : Same a b) : Same b a := by
  intro m m' hm
  obtain ⟨hn, hend⟩ := h m' m hm.symm
  exact ⟨hn.symm, hend.symm⟩

theorem Same.trans {a b c : Exec α} (h : Same a b) (h' : Same b c) : Same a c := by
  intro m m' hm
  obtain ⟨hn, hend⟩ := h m m (.refl m)
  obtain ⟨hn', hend'⟩ := h' m m' hm
  exact ⟨hn.trans hn', hend.trans hend'⟩

/-- Of values that are held it only matters what they own. -/
theorem Same.holding {a b : Exec α} {v w : Value} (hab : Same a b) (h : v.owned = w.owned) :
    Same (holding v a) (holding w b) := by
  intro m m' hm
  have hheld : ({ m with held := v :: m.held } : Machine).Akin { m' with held := w :: m'.held } :=
    { hm with held := congrArg₂ (· ++ ·) h hm.held }
  obtain ⟨hn, hend⟩ := hab _ _ hheld
  exact ⟨Akin.simulation.unhold hm hn, hend⟩

theorem same_exec_bare (limit : Option Nat) (n : Nat) :
    (∀ node, Same (exec limit n node) (exec limit n node.bare)) ∧
      ∀ s s' v, Same (text limit n s v) (text limit n s' v) := by
  have h := Akin.simulation
  induction n with
  | zero => exact ⟨fun _ => .throw .exhausted, fun _ _ _ => .throw .exhausted⟩
  | succ n ih =>
    obtain ⟨hnode, htext⟩ := ih
    -- the two bodies that a call comes to are known to be the same only without their places
    have hcall (o name args s s') :
        Same (callMethod limit (exec limit n) o name args s) (callMethod limit (exec limit n) o name args s') := by
      intro m m' hm
      refine Alike.callMethod h hm (fun _ => trivial) (fun _ => trivial) fun method hf method' hf' => ?_
      have hbare := hnode method'.body
      rw [← hm.target?_bare hf hf'] at hbare
      exact ⟨(hnode method.body).trans hbare.symm, .inr fun _ _ => trivial⟩
    constructor
    · intro node
      have htwin : node.Twin (fun c c' => Same (exec limit n c) (exec limit n c')) node.bare := by
        rw [node.bare_eq_mapParts]
        exact .mapParts {} fun c _ => hnode c
      exact .execOver h htwin (fun _ _ => trivial) trivial (fun _ _ _ _ => .inr trivial)
        (fun _ o name args => hcall o name args _ _) fun _ v => htext _ _ v
    · exact fun s s' v => .textOver h trivial (fun o => hcall o strName [] s s') (htext s s') v

/-- Trees that are the same up to their spans have the same runs. -/
theorem same_exec {node node' : Node} (h : node.bare = node'.bare) (limit : Option Nat) (n : Nat) :
    Same (exec limit n node) (exec limit n node') := by
  have hbare := (same_exec_bare limit n).1 node'
  rw [← h] at hbare
  exact ((same_exec_bare limit n).1 node).trans hbare.symm

end Exec

end ClassScript

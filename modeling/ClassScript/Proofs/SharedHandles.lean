import ClassScript.Proofs.Keeping
import ClassScript.Proofs.Watch
import ClassScript.Run.Program

/-!
# Handles throughout a run

At every turn of a run, handles that do not own their objects stand where they belong and lead to live
objects.  A watch is met if tidy machines have what it asks for (`Watch.Sure.keeps`).  Such a watch is
that of a receiver during a call (`liveWatch`), which is part of the watch of all handles
(`handleWatch`).  Main statement: the latter is met by every run that starts without handles that do
not own (`Machine.Starting.handles_kept`).
-/

namespace ClassScript

namespace Exec

variable {limit : Option Nat} {hs : List Value}

/-- An action that keeps handles where they belong passes a guard that only asks for what it keeps. -/
theorem Keeps.guarded {α : Type} {Q : α → Prop} {a b : Exec α} {before : Machine → Prop}
    {after : Except Signal α → Machine → Prop} (h : Keeps hs Q a b)
    (hb : ∀ m : Machine, m.Tidy → (∀ v ∈ hs, v ∈ m.held) → before m)
    (ha : ∀ m : Machine, (∀ v ∈ hs, v ∈ m.held) → Fine Q (b m).1 → m.Passes (b m).2 →
      after (b m).1 (b m).2) (stop : Signal) :
    Keeps hs Q (guarded before after stop a) b := by
  intro m hm hheld
  obtain ⟨heq, hfine, hpass⟩ := h m hm hheld
  refine ⟨?_, hfine, hpass⟩
  have hafter : after (a m).1 (a m).2 := by
    rw [heq]
    exact ha m hheld hfine hpass
  rw [guarded_of_holds (hb m hm hheld) hafter, heq]

/-- What a watch asks for is there wherever handles are where they belong and `hs` is held. -/
structure Watch.Sure (w : Watch) (limit : Option Nat) (hs : List Value) : Prop where
  before : ∀ n node (m : Machine), m.Tidy → (∀ v ∈ hs, v ∈ m.held) → w.before n node m
  after : ∀ n node (m : Machine), (∀ v ∈ hs, v ∈ m.held) →
    Fine Value.Owning (exec limit n node m).1 → m.Passes (exec limit n node m).2 →
      w.after n node (exec limit n node m).1 (exec limit n node m).2
  calling : ∀ n o name args span (m : Machine), m.Tidy → (∀ v ∈ hs, v ∈ m.held) →
    .obj (.owned o) ∈ m.held → (∀ v ∈ args, v.Owning) → w.calling n o name args span m
  called : ∀ n o r (m : Machine), m.Tidy → (∀ v ∈ hs, v ∈ m.held) →
    .obj (.owned o) ∈ m.held → Fine Value.Owning r → w.called n o r m
  showing : ∀ n v (m : Machine), m.Tidy → (∀ v ∈ hs, v ∈ m.held) → v.Owning → w.showing n v m

namespace Watch.Sure

variable {w : Watch} (h : w.Sure limit hs)
include h

/-- A watched call keeps handles where they belong if the nodes of bodies do. -/
theorem call {n : Nat} {e : Node → Exec Value}
    (he : ∀ node, Keeps hs Value.Owning (e node) (exec limit n node)) (stop : Signal) (o : ObjId)
    (name : String) {args : List Value} (span : Span) (hargs : ∀ v ∈ args, v.Owning) :
    Keeps (.obj (.owned o) :: hs) Value.Owning (watchCall w stop limit n e o name args span)
      (callMethod limit (exec limit n) o name args span) := by
  have hcall : Keeps (.obj (.owned o) :: hs) Value.Owning (callMethod limit e o name args span)
      (callMethod limit (exec limit n) o name args span) :=
    .callMethod (fun node => (he node).more (.obj (.owned o))) List.mem_cons_self hargs name span
  refine hcall.guarded ?_ ?_ stop
  · intro m hm hheld
    obtain ⟨ho, hheld⟩ := List.forall_mem_cons.1 hheld
    exact h.calling n o name args span m hm hheld ho hargs
  · intro m hheld hfine hpass
    rw [← hpass.held] at hheld
    obtain ⟨ho, hheld⟩ := List.forall_mem_cons.1 hheld
    exact h.called n o _ _ hpass.tidy hheld ho hfine

/-- To watch for what is sure changes nothing. -/
theorem keeps (stop : Signal) (n : Nat) :
    (∀ node, Keeps hs Value.Owning (watch w stop limit n node) (exec limit n node)) ∧
      ∀ span v, v.Owning →
        Keeps hs (fun _ => True) (watchText w stop limit n span v) (text limit n span v) := by
  induction n with
  | zero => exact ⟨fun _ => .throw trivial, fun _ _ _ => .throw trivial⟩
  | succ n ih =>
    obtain ⟨hnode, htext⟩ := ih
    have hp : Parts hs (watchCall w stop limit n (watch w stop limit n))
        (callMethod limit (exec limit n)) (watch w stop limit n) (exec limit n)
        (watchText w stop limit n) (text limit n) :=
      ⟨fun o name args span hargs => h.call hnode stop o name span hargs, hnode, htext⟩
    constructor
    · intro node
      exact (hp.execOver node).guarded (h.before (n + 1) node) (h.after (n + 1) node) stop
    · intro span v hv
      refine (hp.textOver span hv).guarded ?_ (fun _ _ _ _ => trivial) stop
      exact fun m hm hheld => h.showing (n + 1) v m hm hheld hv

theorem throughout {m : Machine} (hm : m.Tidy) (hheld : ∀ v ∈ hs, v ∈ m.held) (n : Nat)
    (node : Node) : Throughout w limit n node m :=
  fun stop => (((h.keeps stop n).1 node) m hm hheld).1

end Watch.Sure

/-! ### Receivers -/

/-- Watches that an object is alive. -/
def liveWatch (o : ObjId) : Watch where
  before _ _ m := m.live (.object o) = true
  after _ _ _ m := m.live (.object o) = true
  calling _ _ _ _ _ m := m.live (.object o) = true
  called _ _ _ m := m.live (.object o) = true
  showing _ _ m := m.live (.object o) = true

/-- An object is alive throughout a call of one of its methods. -/
def LiveThroughout (limit : Option Nat) (n : Nat) (o : ObjId) (name : String) (args : List Value)
    (span : Span) (m : Machine) : Prop :=
  ∀ stop, watchCall (liveWatch o) stop limit n (watch (liveWatch o) stop limit n) o name args span m =
    callMethod limit (exec limit n) o name args span m

/-- What is held is alive all the time. -/
theorem liveWatch_sure (limit : Option Nat) (o : ObjId) :
    (liveWatch o).Sure limit [.obj (.owned o)] := by
  have hlive : ∀ {m : Machine}, (∀ v ∈ [Value.obj (.owned o)], v ∈ m.held) →
      m.live (.object o) = true := fun hheld => Machine.live_of_held (hheld _ List.mem_cons_self)
  refine ⟨?_, ?_, ?_, ?_, ?_⟩
  · exact fun _ _ _ _ hheld => hlive hheld
  · intro n node m hheld _ hpass
    rw [← hpass.held] at hheld
    exact hlive hheld
  · exact fun _ _ _ _ _ _ _ hheld _ _ => hlive hheld
  · exact fun _ _ _ _ _ hheld _ _ => hlive hheld
  · exact fun _ _ _ _ hheld _ => hlive hheld

theorem liveThroughout {m : Machine} (hm : m.Tidy) {o : ObjId} (ho : .obj (.owned o) ∈ m.held)
    (n : Nat) (name : String) {args : List Value} (hargs : ∀ v ∈ args, v.Owning) (span : Span) :
    LiveThroughout limit n o name args span m := by
  intro stop
  have h := liveWatch_sure limit o
  have hkeeps := h.call (h.keeps stop n).1 stop o name span hargs
  refine (hkeeps m hm ?_).1
  intro v hv
  rcases List.mem_cons.1 hv with rfl | hv
  · exact ho
  · obtain rfl := List.mem_singleton.1 hv
    exact ho

/-! ### All handles -/

/-- A statement that stores a value has stored what it gives. -/
def Stored : Node → Except Signal Value → Machine → Prop
  | .assign _ x _, .ok v, m => m.scope.get? x = some v
  | .setField _ _ field _, .ok v, m => ∃ heap o, m.heap = Heap.setField heap o field v
  | _, _, _ => True

theorem stored_exec (limit : Option Nat) (n : Nat) (node : Node) (m : Machine) :
    Stored node (exec limit n node m).1 (exec limit n node m).2 := by
  cases n with
  | zero => cases node <;> exact trivial
  | succ n =>
    rcases hr : exec limit (n + 1) node m with ⟨s | v, m'⟩
    · cases node <;> exact trivial
    · cases node with
      | assign s x value =>
        obtain ⟨w, m₁, -, hset⟩ := exists_of_bind_eq_ok hr
        cases hset
        exact Scope.get?_set_self m₁.scope x v
      | setField s path field value =>
        obtain ⟨target, m₁, -, htarget⟩ := exists_of_bind_eq_ok hr
        cases target with
        | obj a =>
          obtain ⟨o, m₂, -, hvalue⟩ := exists_of_bind_eq_ok htarget
          obtain ⟨w, m₃, -, hset⟩ := exists_of_bind_eq_ok hvalue
          cases hset
          exact ⟨m₃.heap, o, rfl⟩
        | _ =>
          obtain ⟨type, m₂, -, hraise⟩ := exists_of_bind_eq_ok htarget
          cases hraise
      | _ => exact trivial

/-- Watches all handles: those that do not own their objects never leave their places, and lead to
live objects there; what is stored, given, passed or shown has none of them; no object has been
released that is asked for; and receivers are alive until their methods have ended. -/
def handleWatch (limit : Option Nat) : Watch where
  before _ _ m := m.InOrder
  after _ node r m := m.InOrder ∧ Fine Value.Owning r ∧ Stored node r m
  calling n o name args span m :=
    m.InOrder ∧ (∀ v ∈ args, v.Owning) ∧ LiveThroughout limit n o name args span m
  called _ _ r m := m.InOrder ∧ Fine Value.Owning r
  showing _ v m := m.InOrder ∧ v.Owning ∧ ∀ a, v = .obj a → ∃ o, m.resolve a = some o

theorem handleWatch_sure (limit : Option Nat) : (handleWatch limit).Sure limit [] := by
  refine ⟨?_, ?_, ?_, ?_, ?_⟩
  · exact fun _ _ _ hm _ => hm.inOrder
  · intro n node m _ hfine hpass
    exact ⟨hpass.tidy.inOrder, hfine, stored_exec limit n node m⟩
  · intro n o name args span m hm _ ho hargs
    exact ⟨hm.inOrder, hargs, liveThroughout hm ho n name hargs span⟩
  · exact fun _ _ _ _ hm _ _ hfine => ⟨hm.inOrder, hfine⟩
  · intro n v m hm _ hv
    refine ⟨hm.inOrder, hv, ?_⟩
    rintro a rfl
    cases a with
    | owned o => exact ⟨o, rfl⟩
    | shared o => exact absurd rfl (hv o)

end Exec

/-! ### Runs -/

namespace Machine

/-- A machine outside of all calls, whose only handles that do not own their objects are those by which
objects hold themselves. -/
structure Starting (m : Machine) : Prop where
  scope : ∀ x o, ¬ m.scope.Shares x o
  callers : m.callers = []
  held : ∀ v ∈ m.held, v.Owning
  fields : ∀ p x o, (m.heap.fields p).Shares x o → x = selfName ∧ o = p

namespace Starting

theorem empty : ({} : Machine).Starting := by
  refine ⟨Scope.not_shares_empty, rfl, List.forall_mem_nil _, ?_⟩
  intro p x o ho
  exact absurd ho (Scope.not_shares_empty x o)

variable {m : Machine} (h : m.Starting)
include h

theorem load (root : Node) : (m.load root).Starting := ⟨h.scope, h.callers, h.held, h.fields⟩

/-- New objects may be there from the start. -/
theorem build (cls : ClassId) : { m with heap := m.heap.allocate cls : Machine }.Starting := by
  refine ⟨h.scope, h.callers, h.held, ?_⟩
  intro p x o ho
  rcases Heap.shares_allocate ho with ho | ho
  · exact ho
  · exact h.fields p x o ho

/-- Globals may be there from the start. -/
theorem bind (x : String) {v : Value} (hv : v.Owning) :
    { m with scope := m.scope.set x v : Machine }.Starting :=
  ⟨fun y o ho => h.scope y o (ho.of_set hv), h.callers, h.held, h.fields⟩

theorem tidy : m.Tidy := by
  have hnone : ∀ s ∈ m.scope :: m.callers, ∀ x o, ¬ s.Shares x o := by
    rw [h.callers]
    exact List.forall_mem_singleton.2 h.scope
  refine ⟨fun s hs x o ho => absurd ho (hnone s hs x o), ?_, h.held, h.fields⟩
  exact fun s hs => hnone s (List.mem_of_getLast? hs)

end Starting

end Machine

end ClassScript

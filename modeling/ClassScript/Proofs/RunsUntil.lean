import ClassScript.Proofs.Invariant

/-!
# Runs until something goes wrong

A run may be watched for what `p` says up to the first turn where something else is not as it should be
(`ThroughoutUntil`).  A property of heaps that new objects keep, and values too that are stored in fields where
`bad` does not say so, is kept up to the first value that is stored where `bad` says so.  Main statement: what
follows from such a property holds at every turn up to there (`HeapInvariant.throughoutUntil`).
-/

namespace ClassScript

namespace Exec

variable {limit : Option Nat} {α : Type}

/-- Calls a method if things are as `w` asks for, and watches for what `p` says. -/
noncomputable def callUntil (w : Watch) (p : Machine → Prop) (e : RuntimeError) (stop : Signal)
    (limit : Option Nat) (n : Nat) (exec : Node → Exec Value) : Call := fun o name args span =>
  guarded p (fun _ => p) stop (watchCall w (.error e) limit n exec o name args span)

mutual

/-- Carries out a node as long as things are as `w` asks for, and watches for what `p` says until then. -/
noncomputable def watchUntil (w : Watch) (p : Machine → Prop) (e : RuntimeError) (stop : Signal)
    (limit : Option Nat) : Nat → Node → Exec Value
  | 0, _ => throw .exhausted
  | n + 1, node => guarded p (fun _ => p) stop <| guarded (w.before (n + 1) node) (w.after (n + 1) node) (.error e)
      (execOver (callUntil w p e stop limit n (watchUntil w p e stop limit n)) (watchUntil w p e stop limit n)
        (textUntil w p e stop limit n) node)

/-- The text of a value as long as things are as `w` asks for, watched for what `p` says until then. -/
noncomputable def textUntil (w : Watch) (p : Machine → Prop) (e : RuntimeError) (stop : Signal)
    (limit : Option Nat) : Nat → Span → Value → Exec String
  | 0, _, _ => throw .exhausted
  | n + 1, span, v => guarded p (fun _ => p) stop <| guarded (w.showing (n + 1) v) (fun _ _ => True) (.error e)
      (textOver (callUntil w p e stop limit n (watchUntil w p e stop limit n))
        (textUntil w p e stop limit n) span v)

end

/-- What `p` says holds throughout a run up to the first turn where something is not as `w` asks for, if there
is one. -/
def ThroughoutUntil (w : Watch) (p : Machine → Prop) (limit : Option Nat) (n : Nat) (node : Node)
    (m : Machine) : Prop :=
  ∀ e stop, watchUntil w p e stop limit n node m = watch w (.error e) limit n node m

/-- A run that is stopped in the same way as another is like it. -/
theorem stopped_obeys {I : Machine → Prop} {P : Value → Prop} {S : RuntimeError → Prop} {Q : α → Prop}
    {a b : Exec α} (h : Obeys I P S Q a b) (before : Machine → Prop) (after : Except Signal α → Machine → Prop)
    {e : RuntimeError} (he : S e) :
    Obeys I P S Q (guarded before after (.error e) a) (guarded before after (.error e) b) := by
  intro m hm
  obtain ⟨heq, hm', hend⟩ := h m hm
  unfold guarded
  rw [heq]
  split
  · split
    · exact ⟨rfl, hm', hend⟩
    · exact ⟨rfl, hm', he⟩
  · exact ⟨rfl, hm, he⟩

/-! ### Values that are stored -/

/-- A node stores a value in a field of an object where `bad` says so, of the heap that the value is found with. -/
def Stores (bad : Heap → ObjId → String → Value → Prop) (limit : Option Nat) (n : Nat) : Node → Machine → Prop
  | .setField _ path field value, m => ∃ a o v m', m.read path = .ok (.obj a) ∧ m.resolve a = some o ∧
      holding (.obj (.owned o)) (exec limit n value) m = (.ok v, m') ∧ bad m'.heap o field v
  | _, _ => False

/-- Watches that no value is stored where `bad` says so. -/
def fieldWatch (bad : Heap → ObjId → String → Value → Prop) (limit : Option Nat) : Watch where
  before n node m := ¬ Stores bad limit (n - 1) node m

end Exec

open Exec

/-- What new objects keep, and what is stored in fields if `bad` does not say so. -/
structure HeapInvariant (bad : Heap → ObjId → String → Value → Prop) (I : Heap → Prop) : Prop where
  create : ∀ {h : Heap} (cls : ClassId), I h → I (h.allocate cls)
  setField : ∀ {h : Heap} {o : ObjId} {f : String} {v : Value}, I h → ¬ bad h o f v → I (h.setField o f v)

/-- All that leaves the heap as it is keeps what is said of the heap alone. -/
theorem BaseInvariant.ofHeap (I : Heap → Prop) :
    BaseInvariant (fun m => I m.heap) (fun _ => True) fun _ => True where
  plain _ _ := trivial
  hold hm _ := hm
  unhold _ hm := hm
  enter _ hm _ _ := hm
  leave _ hm := hm
  trace _ hm := hm
  sink _ hm := hm
  setName _ _ hm _ := hm
  resolve _ _ _ := trivial
  read _ _ := trivial
  error _ := trivial

namespace HeapInvariant

variable {bad : Heap → ObjId → String → Value → Prop} {I : Heap → Prop} {limit : Option Nat}

/-- `a` does what `b` does on heaps where `I` holds, and `b` keeps it. -/
abbrev Spares {α : Type} (I : Heap → Prop) (Q : α → Prop) (a b : Exec α) : Prop :=
  Obeys (fun m => I m.heap) (fun _ => True) (fun _ => True) Q a b

theorem ends_true {α : Type} (r : Except Signal α) : Ends (fun _ => True) (fun _ => True) (fun _ => True) r := by
  rcases r with s | x
  · cases s <;> exact trivial
  · exact trivial

variable (h : HeapInvariant bad I)
include h

/-- The value of a field is stored without harm if it is not stored where `bad` says so. -/
theorem assignField {e e' : Node → Exec Value} {n : Nat} {value : Node} {stop : RuntimeError}
    (he : Spares I (fun _ => True) (e value) (e' value))
    (hrun : Unless (· = .error stop) (e' value) (exec limit n value)) (path : List String) (field : String)
    (span : Span) {m : Machine} (hm : I m.heap) (hno : ¬ Stores bad limit n (.setField span path field value) m) :
    assignField e path field value span m = assignField e' path field value span m ∧
      I (assignField e' path field value span m).2.heap := by
  unfold Exec.assignField
  rw [bind_apply, bind_apply, readPath_apply]
  cases hread : m.read path with
  | error name => exact ⟨rfl, hm⟩
  | ok target =>
    cases target with
    | obj a =>
      dsimp only
      rw [bind_apply, bind_apply, object_apply]
      cases ho : m.resolve a with
      | none => exact ⟨rfl, hm⟩
      | some o =>
        dsimp only
        obtain ⟨heq, hm', -⟩ := (BaseInvariant.ofHeap I).holding (v := .obj (.owned o)) trivial he m hm
        have hrun' := hrun.holding (.obj (.owned o)) m
        rw [bind_apply, bind_apply, heq]
        rcases hr : holding (.obj (.owned o)) (e' value) m with ⟨s | v, m'⟩
        · rw [hr] at hm'
          exact ⟨rfl, hm'⟩
        · rw [hr] at hm' hrun'
          refine ⟨rfl, h.setField hm' fun hbad => hno ?_⟩
          exact ⟨a, o, v, m', hread, ho, hrun' nofun, hbad⟩
    | _ => exact ⟨rfl, hm⟩

/-- Until a value is stored where `bad` says so, what is watched for holds. -/
theorem watchUntil {p : Machine → Prop} (hp : ∀ m, I m.heap → p m) (limit : Option Nat) (e : RuntimeError)
    (stop : Signal) (n : Nat) :
    (∀ node, Spares I (fun _ => True) (watchUntil (fieldWatch bad limit) p e stop limit n node)
      (watch (fieldWatch bad limit) (.error e) limit n node)) ∧
      ∀ span v, Spares I (fun _ => True) (textUntil (fieldWatch bad limit) p e stop limit n span v)
        (watchText (fieldWatch bad limit) (.error e) limit n span v) := by
  have hI := BaseInvariant.ofHeap I
  have hguard {α : Type} {Q : α → Prop} {a b : Exec α} (hab : Spares I Q a b) :
      Spares I Q (guarded p (fun _ => p) stop a) b :=
    hab.guarded hp (fun _ m hm _ => hp m hm) stop
  induction n with
  | zero => exact ⟨fun _ => .still (fun _ => rfl) trivial, fun _ _ => .still (fun _ => rfl) trivial⟩
  | succ n ih =>
    obtain ⟨hnode, htext⟩ := ih
    have hpieces : Pieces (fun _ => True) (fun _ => True) (fun _ Q a b => Spares I Q a b) []
        (callUntil (fieldWatch bad limit) p e stop limit n (Exec.watchUntil (fieldWatch bad limit) p e stop limit n))
        (watchCall (fieldWatch bad limit) (.error e) limit n (watch (fieldWatch bad limit) (.error e) limit n))
        (Exec.watchUntil (fieldWatch bad limit) p e stop limit n) (watch (fieldWatch bad limit) (.error e) limit n)
        (textUntil (fieldWatch bad limit) p e stop limit n) (watchText (fieldWatch bad limit) (.error e) limit n) := by
      refine ⟨fun a name args span _ _ _ => ?_, fun node _ => hnode node, fun span v _ => htext span v⟩
      have hcall : Spares I (fun _ => True) (callMethod limit _ a.id name args span) _ :=
        hI.callMethod (fun _ _ => ⟨hnode _, .inr fun _ _ => trivial⟩) trivial (fun _ _ => trivial) name span
      exact hguard (stopped_obeys hcall _ _ trivial)
    constructor
    · intro node
      refine hguard ?_
      rw [watch]
      -- only where a field is set may the next step be the one that the run is stopped at
      by_cases hset : ∃ span path field value, node = .setField span path field value
      · obtain ⟨span, path, field, value, rfl⟩ := hset
        intro m hm
        by_cases hno : Stores bad limit n (.setField span path field value) m
        · rw [guarded_of_not_before (not_not_intro hno), guarded_of_not_before (not_not_intro hno)]
          exact ⟨rfl, hm, trivial⟩
        · have hrun := (unless_stopped (fieldWatch bad limit) e limit n).1 value
          obtain ⟨heq, hm'⟩ := h.assignField (hnode value) hrun path field span hm hno
          rw [guarded_of_holds hno trivial, guarded_of_holds hno trivial]
          exact ⟨heq, hm', ends_true _⟩
      · refine stopped_obeys (hpieces.execOver_of_heap hI.rules (fun _ _ => trivial) (fun _ _ _ _ _ => trivial)
          (fun _ _ _ => trivial) (fun x _ _ => hI.bindName x) ?_ ?_ ?_) _ _ trivial
        · exact fun _ _ _ => .returned trivial
        · intro span cls args _
          refine hpieces.instantiate hI.rules (fun _ _ => trivial) ?_ span
          exact fun m hm => ⟨rfl, h.create cls hm, trivial⟩
        · exact fun span path field value heq => absurd ⟨span, path, field, value, heq⟩ hset
    · intro span v
      exact hguard (stopped_obeys (hpieces.textOver hI.rules span trivial) _ _ trivial)

/-- What follows from an invariant of heaps holds at all turns of a run up to the first value that is stored where
`bad` says so. -/
theorem throughoutUntil {p : Machine → Prop} (hp : ∀ m, I m.heap → p m) {m : Machine} (hm : I m.heap)
    (limit : Option Nat) (n : Nat) (node : Node) : ThroughoutUntil (fieldWatch bad limit) p limit n node m :=
  fun e stop => ((h.watchUntil hp limit e stop n).1 node m hm).1

end HeapInvariant

/-- What follows from an invariant of heaps that no value can break holds at all turns of every run. -/
theorem HeapInvariant.throughout {I : Heap → Prop} (h : HeapInvariant (fun _ _ _ _ => False) I)
    {p : Machine → Prop} (hp : ∀ m, I m.heap → p m) {m : Machine} (hm : I m.heap) (limit : Option Nat) (n : Nat)
    (node : Node) : Throughout (.always p) limit n node m := by
  have hI : Invariant (fun m => I m.heap) (fun _ => True) fun _ => True :=
    { BaseInvariant.ofHeap I with
      create := fun cls hm _ => ⟨h.create cls hm, trivial⟩
      setField := fun _ _ hm _ _ => h.setField hm id
      cls := fun _ => trivial
      parts := fun _ _ => trivial
      body := fun _ _ => ⟨trivial, .inr fun _ _ => trivial⟩ }
  refine hI.throughout ⟨?_, ?_, ?_, ?_, ?_⟩ limit n trivial hm
  · exact fun _ _ m hm => hp m hm
  · exact fun _ _ _ m hm _ => hp m hm
  · exact fun _ _ _ _ _ m hm _ _ => hp m hm
  · exact fun _ _ _ m hm _ => hp m hm
  · exact fun _ _ m hm _ => hp m hm

end ClassScript

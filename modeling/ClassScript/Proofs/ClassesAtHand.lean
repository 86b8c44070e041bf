import ClassScript.Proofs.ClassMarks
import ClassScript.Proofs.Invariant
import ClassScript.Run.Program
import Mathlib.Data.List.Nodup

/-!
# Classes at hand

The classes of a program that has been read are at hand from the moment its tree is loaded as long as the
machine owns the tree, whatever is run meanwhile: neither the bindings of scopes nor the definitions that
have been carried out have to do with it.  So a node of the tree that makes an instance always finds its
class.  Main statement: `ofTokens_atHand`.
-/

namespace ClassScript

namespace Machine

/-- A machine that owns the classes of a tree and has each of them under its identity. -/
structure AtHand (m : Machine) (root : Node) : Prop where
  pinned : ∀ d ∈ root.classes, d.id ∈ m.pinned
  found : ∀ d ∈ root.classes, m.heap.class? d.id = some d

/-- A machine that owns and has the classes that `b` does, and the objects of `b` with their classes. -/
structure Extends (b m : Machine) : Prop where
  pinned : m.pinned = b.pinned
  classes : m.heap.classes = b.heap.classes
  fresh : b.heap.fresh ≤ m.heap.fresh
  classOf : ∀ o < b.heap.fresh, m.heap.classOf o = b.heap.classOf o

theorem Extends.refl (m : Machine) : m.Extends m := ⟨rfl, rfl, Nat.le_refl _, fun _ _ => rfl⟩

theorem Extends.allocate {b m : Machine} (hm : b.Extends m) (cls : ClassId) :
    b.Extends { m with heap := m.heap.allocate cls } := by
  refine ⟨hm.pinned, hm.classes, Nat.le_trans hm.fresh (by simp), fun o ho => ?_⟩
  rw [Heap.classOf_allocate_of_lt _ _ (Nat.lt_of_lt_of_le ho hm.fresh)]
  exact hm.classOf o ho

/-- Every run extends the machine that it starts from. -/
theorem Extends.invariant (b : Machine) : Invariant b.Extends (fun _ => True) fun _ => True where
  plain _ _ := trivial
  hold hm _ := ⟨hm.pinned, hm.classes, hm.fresh, hm.classOf⟩
  unhold _ hm := ⟨hm.pinned, hm.classes, hm.fresh, hm.classOf⟩
  enter _ hm _ _ := ⟨hm.pinned, hm.classes, hm.fresh, hm.classOf⟩
  leave _ hm := ⟨hm.pinned, hm.classes, hm.fresh, hm.classOf⟩
  trace _ hm := ⟨hm.pinned, hm.classes, hm.fresh, hm.classOf⟩
  sink _ hm := ⟨hm.pinned, hm.classes, hm.fresh, hm.classOf⟩
  create cls hm _ := ⟨hm.allocate cls, trivial⟩
  setName _ _ hm _ := ⟨hm.pinned, hm.classes, hm.fresh, hm.classOf⟩
  setField f _ hm _ _ := by
    refine ⟨hm.pinned, hm.classes, by simpa using hm.fresh, fun o ho => ?_⟩
    rw [Heap.classOf_setField]
    exact hm.classOf o ho
  resolve _ _ _ := trivial
  read _ _ := trivial
  error _ := trivial
  cls _ := trivial
  parts _ _ := trivial
  body _ _ := ⟨trivial, .inr fun _ _ => trivial⟩

theorem AtHand.of_extends {b m : Machine} {root : Node} (h : b.AtHand root) (hm : b.Extends m) :
    m.AtHand root where
  pinned d hd := hm.pinned ▸ h.pinned d hd
  found d hd := by
    rw [Heap.class?, hm.classes]
    exact h.found d hd

/-- The classes of a tree are at hand from the moment it is loaded. -/
theorem atHand_load {root : Node} (h : root.ClassesClosed) (m : Machine) : (m.load root).AtHand root where
  pinned d hd := List.mem_append_left _ (List.mem_map.2 ⟨d, hd, rfl⟩)
  found d hd := by
    have hfind : root.classes.reverse.find? (fun e => e.id = d.id) = some d := by
      cases he : root.classes.reverse.find? fun e => e.id = d.id with
      | none =>
        have hd' := List.find?_eq_none.1 he d (List.mem_reverse.2 hd)
        simp at hd'
      | some e =>
        have hid : e.id = d.id := by simpa using List.find?_some he
        have hmem : e ∈ root.classes := List.mem_reverse.1 (List.mem_of_find?_eq_some he)
        rw [List.inj_on_of_nodup_map h.names hmem hd (congrArg ClassId.name hid)]
    show (root.classes.reverse ++ m.heap.classes).find? (fun e => e.id = d.id) = some d
    rw [List.find?_append, hfind]
    rfl

/-- A tree of another program that is loaded takes no classes away. -/
theorem AtHand.load {m : Machine} {root other : Node} (h : m.AtHand root)
    (hother : ∀ d ∈ root.classes, ∀ e ∈ other.classes, e.id ≠ d.id) : (m.load other).AtHand root where
  pinned d hd := List.mem_append_right _ (h.pinned d hd)
  found d hd := by
    show (other.classes.reverse ++ m.heap.classes).find? (fun e => e.id = d.id) = some d
    have hnone : other.classes.reverse.find? (fun e => e.id = d.id) = none := by
      refine List.find?_eq_none.2 fun e he => ?_
      simpa using hother d hd e (List.mem_reverse.1 he)
    rw [List.find?_append, hnone]
    exact h.found d hd

theorem AtHand.live {m : Machine} {root : Node} (h : m.AtHand root) {d : ClassDecl}
    (hd : d ∈ root.classes) : m.live (.cls d.id) = true := by
  rw [Machine.live, isRoot_iff.2 (mem_roots.2 (.inl ⟨d.id, h.pinned d hd, rfl⟩)), Bool.true_or]

end Machine

namespace Exec

open Machine

/-- Makes an object of a class that is there, and sets it up. -/
def make (limit : Option Nat) (n : Nat) (cls : ClassId) (args : List Node) (span : Span) : Exec Value := do
  let o ← create cls args.length
  setUp (callMethod limit (exec limit n)) (exec limit n) o args span
  return .obj (.owned o)

/-- A node that makes an instance of a class that is alive does not fail for want of it. -/
theorem exec_new_of_live {m : Machine} {cls : ClassId} (h : m.live (.cls cls) = true) (limit : Option Nat)
    (n : Nat) (span : Span) (args : List Node) :
    exec limit (n + 1) (.new span cls args) m = make limit n cls args span m := by
  show (if m.live (.cls cls) = true then make limit n cls args span
    else raise (.nameError cls.name) span) m = _
  rw [if_pos h]

/-- An object that is made is new and of its class, and is what making it gives. -/
theorem make_object (limit : Option Nat) (n : Nat) (cls : ClassId) (args : List Node) (span : Span)
    (m : Machine) :
    m.heap.fresh < (make limit n cls args span m).2.heap.fresh ∧
      (make limit n cls args span m).2.heap.classOf m.heap.fresh = cls ∧
      ∀ v, (make limit n cls args span m).1 = .ok v → v = .obj (.owned m.heap.fresh) := by
  let m₁ : Machine :=
    { m with
      heap := m.heap.allocate cls
      trace := m.trace.push (.newInstance cls.name args.length) }
  have hinv := Extends.invariant m₁
  let rest : Exec Value := do
    setUp (callMethod limit (exec limit n)) (exec limit n) m.heap.fresh args span
    return .obj (.owned m.heap.fresh)
  have hset : Obeys m₁.Extends (fun _ => True) (fun _ => True) (· = Value.obj (.owned m.heap.fresh))
      rest rest := by
    refine .bind ((hinv.pieces limit n []).setUp hinv.rules trivial (fun _ _ => trivial) span) fun _ _ => ?_
    exact .still (fun _ => rfl) rfl
  obtain ⟨-, hext, hend⟩ := hset m₁ (.refl m₁)
  change m₁.Extends (make limit n cls args span m).2 at hext
  change Ends _ _ _ (make limit n cls args span m).1 at hend
  have hlt : m.heap.fresh < m₁.heap.fresh := by
    rw [show m₁.heap.fresh = m.heap.fresh + 1 from Heap.fresh_allocate _ _]
    exact Nat.lt_succ_self _
  refine ⟨Nat.lt_of_lt_of_le hlt hext.fresh, ?_, fun v hv => ?_⟩
  · exact (hext.classOf m.heap.fresh hlt).trans (Heap.classOf_allocate_self _ _)
  · rw [hv] at hend
    exact hend

/-- What becomes of a node that makes an instance: whatever the rest of the machine is, its class `d` is
found, an object of it is made, and nothing else comes of the node. -/
structure Instantiates (limit : Option Nat) (n : Nat) (d : ClassDecl) (args : List Node) (span : Span)
    (m : Machine) : Prop where
  found : exec limit (n + 1) (.new span d.id args) m = make limit n d.id args span m
  made : m.heap.fresh < (exec limit (n + 1) (.new span d.id args) m).2.heap.fresh
  classOf : (exec limit (n + 1) (.new span d.id args) m).2.heap.classOf m.heap.fresh = d.id
  class? : (exec limit (n + 1) (.new span d.id args) m).2.heap.class? d.id = some d
  value : ∀ v, (exec limit (n + 1) (.new span d.id args) m).1 = .ok v → v = .obj (.owned m.heap.fresh)

end Exec

open Exec

theorem Machine.AtHand.instantiates {m : Machine} {root : Node} (h : m.AtHand root) {d : ClassDecl}
    (hd : d ∈ root.classes) (limit : Option Nat) (n : Nat) (args : List Node) (span : Span) :
    Instantiates limit n d args span m := by
  have hfound := exec_new_of_live (h.live hd) limit n span args
  obtain ⟨hmade, hclass, hvalue⟩ := make_object limit n d.id args span m
  have hext := ((Machine.Extends.invariant m).exec limit (n + 1) (.new span d.id args) trivial (.refl m)).1
  refine ⟨hfound, ?_, ?_, (h.of_extends hext).found d hd, ?_⟩
  · rwa [hfound]
  · rwa [hfound]
  · rwa [hfound]

theorem Machine.AtHand.throughout {m : Machine} {root : Node} (h : m.AtHand root) (limit : Option Nat)
    (n : Nat) (node : Node) : Throughout (.always (·.AtHand root)) limit n node m := by
  refine (Machine.Extends.invariant m).throughout ?_ limit n trivial (.refl m)
  exact ⟨fun _ _ _ hm => h.of_extends hm, fun _ _ _ _ hm _ => h.of_extends hm,
    fun _ _ _ _ _ _ hm _ _ => h.of_extends hm, fun _ _ _ _ hm _ => h.of_extends hm,
    fun _ _ _ hm _ => h.of_extends hm⟩

/-- The classes of a program that has been read are closed, and at hand as long as its tree is: from the
moment it is loaded, throughout all that is run, and while other programs are loaded.  A node of the tree
that makes an instance makes one of the class that the tree defines under its name. -/
theorem ofTokens_atHand {unit : Nat} {tokens : List Token} {root : Node}
    (h : Node.ofTokens unit tokens = .ok root) :
    root.ClassesClosed ∧ (∀ m : Machine, (m.load root).AtHand root) ∧
      ∀ m : Machine, m.AtHand root →
        (∀ limit n node, Throughout (.always (·.AtHand root)) limit n node m) ∧
        (∀ unit' tokens' other, unit' ≠ unit → Node.ofTokens unit' tokens' = .ok other →
          (m.load other).AtHand root) ∧
        ∀ span cls args, root.Has (.new span cls args) →
          ∃ d ∈ root.classes, d.id = cls ∧ ∀ limit n, Instantiates limit n d args span m := by
  obtain ⟨b, hrun⟩ := ofTokens_run h
  have hclosed := hrun.classesClosed
  refine ⟨hclosed, fun m => m.atHand_load hclosed, fun m hm => ⟨hm.throughout, ?_, ?_⟩⟩
  · intro unit' tokens' other hne hother
    obtain ⟨b', hrun'⟩ := ofTokens_run hother
    refine hm.load fun d hd e he heq => hne ?_
    rw [← hrun'.unit_of_mem_classes e he, ← hrun.unit_of_mem_classes d hd, heq]
  · intro span cls args hn
    obtain ⟨d, hd, rfl⟩ := hclosed.used span cls args hn
    exact ⟨d, hd, rfl, fun limit n => hm.instantiates hd limit n args span⟩

/-- A class is found though its name is bound to a number and its definition has not been carried out. -/
theorem ofTokens_atHand_rebound :
    let tokens : List Token := ([.keyword .kClass, .name "A", .char ':', .newline, .indent, .keyword .kDef,
      .name "f", .char '(', .char ')', .char ':', .newline, .indent, .keyword .kReturn, .newline, .dedent,
      .dedent, .name "A", .char '(', .char ')', .newline, .eof] : List TokenKind).map fun k => ⟨k, {}⟩
    ∃ root, Node.ofTokens 0 tokens = .ok root ∧
      let m := Machine.load { scope := ({} : Scope).set "A" (.int 1) } root
      ∃ d ∈ root.classes, d.id = ⟨0, "A"⟩ ∧ ∀ limit n, Instantiates limit n d [] {} m := by
  intro tokens
  have h : Node.ofTokens 0 tokens = .ok (.block {} [
      .classDef {} ⟨⟨0, "A"⟩, none, [⟨"f", [], .methodBody {} (.block {} [.ret {} (.literal {} .none)])⟩]⟩,
      .new {} ⟨0, "A"⟩ []]) := rfl
  refine ⟨_, h, ?_⟩
  intro m
  obtain ⟨-, hload, hrun⟩ := ofTokens_atHand h
  exact (hrun m (hload _)).2.2 {} ⟨0, "A"⟩ [] (.child (List.mem_cons_of_mem _ List.mem_cons_self) (.self _))

end ClassScript

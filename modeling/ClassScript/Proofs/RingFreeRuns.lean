import ClassScript.Proofs.ClassOrder
import ClassScript.Proofs.ClassesAtHand
import ClassScript.Proofs.RunsUntil

/-!
# Runs without rings

A run makes no ring of owners by itself: new objects own their classes, frames do not own receivers, and
classes own none but classes that have ended before them.  What is left is an assignment to a field whose
value leads to the object that it is stored in (`Exec.StoresLoop`).  Main statement: where there is no such
assignment nothing ever owns itself, and so whatever is alive can be reached (`ofTokens_ringFree`).
-/

namespace ClassScript

open Relation

namespace Machine

/-- Nothing on the heap owns itself, and a line of owners leads to all that is alive. -/
structure RingFree (m : Machine) : Prop where
  acyclic : m.heap.Acyclic
  kept : ∀ e, m.live e = true → m.Kept e

theorem ringFree_of_acyclic {m : Machine} (h : m.heap.Acyclic) : m.RingFree := ⟨h, fun _ he => kept_of_live h he⟩

end Machine

namespace Exec

variable {limit : Option Nat}

/-- A node stores a value in a field of an object that the value leads to, by owners. -/
def StoresLoop (limit : Option Nat) (n : Nat) : Node → Machine → Prop
  | .setField _ path _ value, m => ∃ a o v m', m.read path = .ok (.obj a) ∧ m.resolve a = some o ∧
      holding (.obj (.owned o)) (exec limit n value) m = (.ok v, m') ∧
        ∃ e ∈ v.owned, ReflTransGen m'.heap.Owns e (.object o)
  | _, _ => False

/-- Watches that no value is stored in an object that it leads to. -/
def storeWatch (limit : Option Nat) : Watch where
  before n node m := ¬ StoresLoop limit (n - 1) node m

/-- All values that lead to the object that they are stored in are watched for. -/
theorem storeWatch_eq (limit : Option Nat) :
    storeWatch limit = fieldWatch (fun h o _ v => ∃ e ∈ v.owned, ReflTransGen h.Owns e (.object o)) limit :=
  rfl

/-- To be without rings is kept by new objects, and by values that do not lead to the object that they are stored
in. -/
theorem acyclic_heapInvariant :
    HeapInvariant (fun h o _ v => ∃ e ∈ v.owned, ReflTransGen h.Owns e (.object o)) Heap.Acyclic where
  create cls hm := hm.allocate cls
  setField hm hno := hm.setField (fun e he hback => hno ⟨e, he, hback⟩) _

/-- No run closes a ring before it stores a value in an object that the value leads to. -/
theorem ringFree_until {m : Machine} (hm : m.heap.Acyclic) (n : Nat) (node : Node) :
    ThroughoutUntil (storeWatch limit) Machine.RingFree limit n node m := by
  rw [storeWatch_eq]
  exact acyclic_heapInvariant.throughoutUntil (fun _ => Machine.ringFree_of_acyclic) hm limit n node

end Exec

open Exec

/-- The classes of a program that has been read own none but classes that have ended before them, so that they
make no ring where the program is loaded.  No run of the program closes a ring of owners by itself: until a
value is stored in a field of an object that it leads to, nothing ever owns itself, and whatever is alive can be
reached from the trees at hand, from a scope or from a value in use. -/
theorem ofTokens_ringFree {unit : Nat} {tokens : List Token} {root : Node}
    (h : Node.ofTokens unit tokens = .ok root) :
    root.ClassesOrdered ∧ ∀ m : Machine, m.heap.Acyclic → (m.load root).RingFree ∧
      ∀ limit fuel, ThroughoutUntil (storeWatch limit) Machine.RingFree limit fuel root (m.load root) := by
  obtain ⟨b, hrun⟩ := ofTokens_run h
  have hordered := hrun.classesOrdered
  refine ⟨hordered, fun m hm => ?_⟩
  have hload : (m.load root).heap.Acyclic := hm.addClasses hordered
  exact ⟨Machine.ringFree_of_acyclic hload, fun limit fuel => ringFree_until hload fuel root⟩

/-- An object may be stored in another that it does not lead to, and is owned by it from then on. -/
theorem ofTokens_ringFree_next :
    let tokens : List Token := ([.keyword .kClass, .name "A", .char ':', .newline, .indent, .keyword .kDef,
      .name "f", .char '(', .char ')', .char ':', .newline, .indent, .keyword .kReturn, .newline, .dedent,
      .dedent, .name "a", .char '=', .name "A", .char '(', .char ')', .newline, .name "a", .char '.',
      .name "next", .char '=', .name "A", .char '(', .char ')', .newline, .eof] : List TokenKind).map
        fun k => ⟨k, {}⟩
    ∃ root, Node.ofTokens 0 tokens = .ok root ∧ ({} : Heap).Acyclic ∧
      let m := Machine.load {} root
      ThroughoutUntil (storeWatch none) Machine.RingFree none 3 root m ∧
        (exec none 3 root m).2.heap.Owns (.object 0) (.object 1) := by
  intro tokens
  let root : Node := .block {} [
    .classDef {} ⟨⟨0, "A"⟩, none, [⟨"f", [], .methodBody {} (.block {} [.ret {} (.literal {} .none)])⟩]⟩,
    .assign {} "a" (.new {} ⟨0, "A"⟩ []), .setField {} ["a"] "next" (.new {} ⟨0, "A"⟩ [])]
  have h : Node.ofTokens 0 tokens = .ok root := rfl
  refine ⟨root, h, Heap.acyclic_empty, ?_⟩
  intro m
  obtain ⟨-, hrun⟩ := ofTokens_ringFree h
  refine ⟨(hrun {} Heap.acyclic_empty).2 none 3, ?_⟩
  have hown : (exec none 3 root m).2.heap.ownedBy (.object 0) = [.cls ⟨0, "A"⟩, .object 1] := by
    dsimp only [m, root]
    decide +kernel
  rw [Heap.Owns, hown]
  exact List.mem_cons_of_mem _ List.mem_cons_self

end ClassScript

import ClassScript.Proofs.Calls
import ClassScript.Proofs.TreeShape
import ClassScript.Run.Logic

/-!
# What a run binds

Bindings only grow: a run takes no name from its scope and no field from an object, and the names keep their
order.  In its scope it binds no names but those of the assignments and class definitions that are carried out
with its node (`Node.Binds`); what methods bind stays in their frames.  Main statement: `exec_bindings`.
-/

namespace ClassScript

namespace Node

/-- A name is bound by a node, or by one that may be carried out with it. -/
inductive Binds : Node → String → Prop
  | self {n : Node} {x : String} (h : n.bound? = some x) : Binds n x
  | part {n c : Node} {x : String} (hc : c ∈ n.parts) (h : Binds c x) : Binds n x

/-- An expression binds no name. -/
theorem IsExpression.not_binds {n : Node} (h : n.IsExpression) (x : String) : ¬ n.Binds x := by
  intro hx
  induction hx with
  | @self n y hy =>
    have hterm := h.self
    cases n with
    | assign s z v => exact hterm
    | classDef s d => exact hterm
    | _ => cases hy
  | part hc _ ih => exact ih (h.child (mem_children_of_mem_parts hc))

end Node

/-! ### Scopes and machines that grow -/

/-- A scope after names have been bound in it, each of which is as `A` says. -/
def Scope.Grown (A : String → Prop) (s s' : Scope) : Prop :=
  ∃ bs : List (String × Value), (∀ b ∈ bs, A b.1) ∧ s' = s.setAll bs

namespace Scope.Grown

variable {A A' : String → Prop} {s s' s'' : Scope}

theorem refl (s : Scope) : s.Grown A s := ⟨[], List.forall_mem_nil _, rfl⟩

theorem trans (h : s.Grown A s') (h' : s'.Grown A s'') : s.Grown A s'' := by
  obtain ⟨bs, hbs, rfl⟩ := h
  obtain ⟨cs, hcs, rfl⟩ := h'
  exact ⟨bs ++ cs, List.forall_mem_append.2 ⟨hbs, hcs⟩, List.foldl_append.symm⟩

theorem mono (h : s.Grown A s') (hA : ∀ x, A x → A' x) : s.Grown A' s' := by
  obtain ⟨bs, hbs, rfl⟩ := h
  exact ⟨bs, fun b hb => hA b.1 (hbs b hb), rfl⟩

theorem set {x : String} (hx : A x) (v : Value) : s.Grown A (s.set x v) :=
  ⟨[(x, v)], List.forall_mem_singleton.2 hx, rfl⟩

/-- The names that were bound before stand in front, in their order. -/
theorem names (h : s.Grown A s') : s.names <+: s'.names := by
  obtain ⟨bs, -, rfl⟩ := h
  induction bs generalizing s with
  | nil => exact List.prefix_refl _
  | cons b bs ih =>
    refine List.IsPrefix.trans ?_ ih
    rw [names_set]
    split
    · exact List.prefix_refl _
    · exact List.prefix_append _ _

/-- A name that has not been bound anew keeps its value. -/
theorem get? (h : s.Grown A s') {x : String} (hx : ¬ A x) : s'.get? x = s.get? x := by
  obtain ⟨bs, hbs, rfl⟩ := h
  induction bs generalizing s with
  | nil => rfl
  | cons b bs ih =>
    obtain ⟨hb, hbs⟩ := List.forall_mem_cons.1 hbs
    have hne : x ≠ b.1 := by
      rintro rfl
      exact hx hb
    exact (ih hbs).trans (get?_set_of_ne s b.2 hne)

/-- Where no name may be bound the scope is left as it was. -/
theorem eq (h : s.Grown A s') (hA : ∀ x, ¬ A x) : s' = s := by
  obtain ⟨bs, hbs, rfl⟩ := h
  cases bs with
  | nil => rfl
  | cons b bs => exact absurd (hbs b List.mem_cons_self) (hA b.1)

end Scope.Grown

/-- A heap with objects and fields more, but none less, and no object of another class. -/
structure Heap.Grown (h h' : Heap) : Prop where
  fresh : h.fresh ≤ h'.fresh
  classOf : ∀ o < h.fresh, h'.classOf o = h.classOf o
  fields : ∀ o < h.fresh, (h.fields o).Grown (fun _ => True) (h'.fields o)

namespace Heap.Grown

variable {h h' h'' : Heap}

theorem refl (h : Heap) : h.Grown h := ⟨Nat.le_refl _, fun _ _ => rfl, fun _ _ => .refl _⟩

theorem trans (hh : h.Grown h') (hh' : h'.Grown h'') : h.Grown h'' where
  fresh := Nat.le_trans hh.fresh hh'.fresh
  classOf o ho := (hh'.classOf o (Nat.lt_of_lt_of_le ho hh.fresh)).trans (hh.classOf o ho)
  fields o ho := (hh.fields o ho).trans (hh'.fields o (Nat.lt_of_lt_of_le ho hh.fresh))

theorem allocate (h : Heap) (c : ClassId) : h.Grown (h.allocate c) where
  fresh := by simp
  classOf _ ho := classOf_allocate_of_lt h c ho
  fields o ho := by
    rw [fields_allocate_of_ne h c (Nat.ne_of_lt ho)]
    exact .refl _

theorem setField (h : Heap) (o : ObjId) (f : String) (v : Value) : h.Grown (h.setField o f v) where
  fresh := by simp
  classOf p _ := classOf_setField h o p f v
  fields p hp := by
    by_cases hpo : p = o
    · subst hpo
      rw [fields_setField_self h f v hp]
      exact .set trivial v
    · rw [fields_setField_of_ne h f v hpo]
      exact .refl _

end Heap.Grown

/-- A machine whose scope has grown by names as `A` says, and whose heap has grown. -/
structure Machine.Grown (A : String → Prop) (m m' : Machine) : Prop where
  scope : m.scope.Grown A m'.scope
  heap : m.heap.Grown m'.heap

namespace Machine.Grown

variable {A : String → Prop} {m m' m'' : Machine}

theorem refl (m : Machine) : m.Grown A m := ⟨.refl _, .refl _⟩

theorem trans (h : m.Grown A m') (h' : m'.Grown A m'') : m.Grown A m'' :=
  ⟨h.scope.trans h'.scope, h.heap.trans h'.heap⟩

end Machine.Grown

/-! ### Actions -/

namespace Exec

/-- An action after which the machine has grown, with results as `Q` says. -/
def Grows {α : Type} (A : String → Prop) (Q : α → Prop) (a : Exec α) : Prop :=
  ∀ m, m.Grown A (a m).2 ∧ ∀ x, (a m).1 = .ok x → Q x

namespace Grows

variable {A : String → Prop} {α β : Type} {Q Q' : α → Prop} {a : Exec α}

/-- An action that leaves scope and heap as they are. -/
theorem still (hscope : ∀ m, (a m).2.scope = m.scope) (hheap : ∀ m, (a m).2.heap = m.heap)
    (hQ : ∀ m x, (a m).1 = .ok x → Q x) : Grows A Q a := by
  refine fun m => ⟨⟨?_, ?_⟩, hQ m⟩
  · rw [hscope]
    exact .refl _
  · rw [hheap]
    exact .refl _

theorem bind {f : α → Exec β} {R : β → Prop} (h : Grows A Q a) (hf : ∀ x, Q x → Grows A R (f x)) :
    Grows A R (a >>= f) := by
  intro m
  obtain ⟨hgrown, hQ⟩ := h m
  rw [bind_apply]
  rcases hr : a m with ⟨s | x, m'⟩
  · rw [hr] at hgrown
    exact ⟨hgrown, fun _ => nofun⟩
  · rw [hr] at hgrown hQ
    obtain ⟨hgrown', hR⟩ := hf x (hQ x rfl) m'
    exact ⟨hgrown.trans hgrown', hR⟩

/-- To grow is a judgement of actions that leave the scope and the heap as they are. -/
theorem rules (A : String → Prop) :
    Rules (fun _ => True) (fun _ _ => True) fun _ Q a _ => Grows A Q a where
  plain _ _ := trivial
  mono h _ hQ := fun m => ⟨(h m).1, fun x hx => hQ x ((h m).2 x hx)⟩
  pure hx := .still (fun _ => rfl) (fun _ => rfl) fun _ _ h => by cases h; exact hx
  raise _ _ := .still (fun _ => rfl) (fun _ => rfl) fun _ _ => nofun
  ret _ _ := .still (fun _ => rfl) (fun _ => rfl) fun _ _ => nofun
  bind := .bind
  read _ _ h := fun m => h m m
  holding {_ _ _ _ _ v} _ h := by
    intro m
    obtain ⟨hgrown, hQ⟩ := h { m with held := v :: m.held }
    exact ⟨⟨hgrown.scope, hgrown.heap⟩, hQ⟩
  object {_ a} span _ := by
    have hrun (m : Machine) : (object a span m).2 = m := by
      rw [object_apply]
      cases m.resolve a <;> rfl
    refine .still (fun m => by rw [hrun]) (fun m => by rw [hrun]) fun m o ho => ?_
    rw [object_apply] at ho
    cases hr : m.resolve a with
    | none =>
      rw [hr] at ho
      cases ho
    | some p =>
      rw [hr] at ho
      cases ho
      refine ⟨?_, trivial⟩
      rcases Machine.resolve_eq_some hr with rfl | ⟨rfl, -⟩
      · rfl
      · rfl
  readPath path span := by
    have hrun (m : Machine) : (readPath path span m).2 = m := by
      rw [readPath_apply]
      cases m.read path <;> rfl
    exact .still (fun m => by rw [hrun]) (fun m => by rw [hrun]) fun _ _ _ => trivial
  write text := .still (fun _ => by rw [write_apply]) (fun _ => by rw [write_apply]) fun _ _ _ => trivial
  tell _ := .still (fun _ => rfl) (fun _ => rfl) fun _ _ _ => trivial

/-- A call leaves the scope of the caller as it was, whatever the method binds in its frame. -/
theorem callMethod {limit : Option Nat} {e : Node → Exec Value}
    (he : ∀ n, Grows (fun _ => True) (fun _ => True) (e n)) (o : ObjId) (name : String) (args : List Value)
    (span : Span) : Grows A (fun _ => True) (callMethod limit e o name args span) := by
  refine fun m => ⟨?_, fun _ _ => trivial⟩
  obtain ⟨method, -, hrun⟩ | ⟨err, t, hrun⟩ := callMethod_cases limit e o name args span m
  · rw [hrun]
    exact ⟨.refl _, (he method.body (m.inBody o name args method)).1.heap⟩
  · rw [hrun]
    exact ⟨.refl _, .refl _⟩

theorem returned {a : Exec Value} (h : Grows A (fun _ => True) a) : Grows A (fun _ => True) (returned a) := by
  intro m
  rw [returned_apply]
  exact ⟨(h m).1, fun _ _ => trivial⟩

end Grows

/-- A run binds no names but those that its node binds. -/
theorem grows_exec (limit : Option Nat) (n : Nat) :
    (∀ A node, (∀ x, node.Binds x → A x) → Grows A (fun _ => True) (exec limit n node)) ∧
      ∀ A span v, Grows A (fun _ => True) (text limit n span v) := by
  induction n with
  | zero =>
    have hnone {α : Type} (A : String → Prop) : Grows A (fun _ : α => True) (throw .exhausted) :=
      .still (fun _ => rfl) (fun _ => rfl) fun _ _ _ => trivial
    exact ⟨fun A _ _ => hnone A, fun A _ _ => hnone A⟩
  | succ n ih =>
    obtain ⟨hnode, htext⟩ := ih
    have hpieces (A : String → Prop) : Pieces (fun _ => True) (fun c => ∀ x, c.Binds x → A x)
        (fun _ Q a _ => Grows A Q a) [] (callMethod limit (exec limit n)) (callMethod limit (exec limit n))
        (exec limit n) (exec limit n) (text limit n) (text limit n) := by
      refine ⟨fun a name args span _ _ _ => ?_, hnode A, fun span v _ => htext A span v⟩
      exact .callMethod (fun body => hnode _ body fun _ _ => trivial) a.id name args span
    constructor
    · intro A node hA
      have hparts (c : Node) (hc : c ∈ node.parts) (x : String) (hx : c.Binds x) : A x := hA x (.part hc hx)
      refine (hpieces A).execOver_of_heap (Grows.rules A) hparts (fun _ _ _ _ _ => trivial) (fun _ _ _ => trivial)
        ?_ (fun _ _ _ => .returned) ?_ ?_
      · exact fun x v hx _ m => ⟨⟨.set (hA x (.self hx)) v, .refl _⟩, fun _ _ => trivial⟩
      · rintro span cls args rfl
        refine (hpieces A).instantiate (Grows.rules A) hparts ?_ span
        exact fun m => ⟨⟨.refl _, .allocate _ cls⟩, fun _ _ => trivial⟩
      · rintro span path f v rfl
        have hv := List.forall_mem_singleton.1 hparts
        refine (hpieces A).assignField (Grows.rules A) path hv (fun o w _ _ m => ?_) span
        exact ⟨⟨.refl _, .setField _ o f w⟩, fun _ _ => trivial⟩
    · exact fun A span v => (hpieces A).textOver (Grows.rules A) span trivial

end Exec

open Exec

/-- An expression that has been read, at whatever level, is one through and through. -/
theorem Parser.isExpression_of_ok {k : Nat} {level : Level} {s t : Reading} {node : Node}
    (h : expression k level s = .ok (node, t)) : node.IsExpression := by
  obtain ⟨w, -, hw⟩ := expression_sound k level _ _ _ h
  exact hw.isExpression.of_bare fun _ => Node.isTerm_bare.1

/-- Whatever comes of a run, the names of its scope are those that were bound before and maybe others behind
them.  A name that no assignment or class definition of the node binds keeps its value; an expression that has
been read leaves the scope as it was.  Every object keeps its class, and its fields are those that it had before
and maybe others behind them. -/
theorem exec_bindings (limit : Option Nat) (n : Nat) (node : Node) (m : Machine) :
    let m' := (exec limit n node m).2
    m.scope.names <+: m'.scope.names ∧ (∀ x, ¬ node.Binds x → m'.scope.get? x = m.scope.get? x) ∧
      (∀ k level s t, Parser.expression k level s = .ok (node, t) → m'.scope = m.scope) ∧
      ∀ o < m.heap.fresh, m'.heap.classOf o = m.heap.classOf o ∧
        (m.heap.fields o).names <+: (m'.heap.fields o).names := by
  intro m'
  have hgrown : m.Grown node.Binds m' := ((grows_exec limit n).1 node.Binds node (fun _ hx => hx) m).1
  refine ⟨hgrown.scope.names, fun x hx => hgrown.scope.get? hx, fun k level s t hread => ?_, fun o ho => ?_⟩
  · exact hgrown.scope.eq (Parser.isExpression_of_ok hread).not_binds
  · exact ⟨hgrown.heap.classOf o ho, (hgrown.heap.fields o ho).names⟩

end ClassScript

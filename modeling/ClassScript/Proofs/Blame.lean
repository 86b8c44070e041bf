import ClassScript.Proofs.OwnCalls
import ClassScript.Proofs.ReturnDiscipline
import ClassScript.Proofs.SharedHandles
import ClassScript.Proofs.Simulation

/-!
# What errors point at

The place of an error is that of a node of the program that can fail in this way (`Node.Raises`), however
deep in calls it came up.  `Faults I A a` says of an action that it keeps an invariant of machines and that
its errors are as `A` says; there is a rule for each construct, which adds the faults of the construct at its
own place.  Main statement: `ofTokens_blames`.
-/

namespace ClassScript

/-- A relation that holds of a machine and itself as long as it is as an invariant says. -/
theorem Invariant.simulation {I : Machine → Prop} {S : RuntimeError → Prop} (h : Invariant I (fun _ => True) S)
    (hcreate : ∀ {m : Machine} (cls : ClassId), I m → I { m with heap := m.heap.allocate cls }) :
    Simulation fun m m' => m = m' ∧ I m where
  agree := by
    rintro m _ ⟨rfl, -⟩
    exact ⟨rfl, rfl, rfl, rfl, rfl, fun _ _ => rfl⟩
  hold v := by
    rintro ⟨rfl, hm⟩
    exact ⟨rfl, h.hold hm trivial⟩
  unhold := by
    rintro m _ n _ ⟨rfl, hm⟩ ⟨rfl, hn⟩
    exact ⟨rfl, h.unhold hm hn⟩
  enter o params args := by
    rintro ⟨rfl, hm⟩
    exact ⟨rfl, h.enter params hm trivial fun _ _ => trivial⟩
  leave := by
    rintro m _ n _ ⟨rfl, hm⟩ ⟨rfl, hn⟩
    exact ⟨rfl, h.leave hm hn⟩
  told e := by
    rintro ⟨rfl, hm⟩
    exact ⟨rfl, h.trace _ hm⟩
  write text := by
    rintro ⟨rfl, hm⟩
    exact ⟨rfl, h.sink _ hm⟩
  create cls := by
    rintro ⟨rfl, hm⟩
    exact ⟨rfl, hcreate cls hm⟩
  setName x v := by
    rintro ⟨rfl, hm⟩
    exact ⟨rfl, h.setName x hm trivial⟩
  setField o f v := by
    rintro ⟨rfl, hm⟩
    exact ⟨rfl, h.setField f hm trivial trivial⟩

theorem Machine.Extends.simulation (b : Machine) : Simulation fun m m' => m = m' ∧ b.Extends m :=
  (Extends.invariant b).simulation fun cls hm => hm.allocate cls

namespace Exec

variable {α : Type} {A : RuntimeFault → Span → Prop}

/-- An action that keeps `I` and whose errors are as `A` says. -/
def Faults (I : Machine → Prop) (A : RuntimeFault → Span → Prop) (a : Exec α) : Prop :=
  Alike (fun m m' => m = m' ∧ I m) (fun fault span _ => A fault span) a a

/-! ### Runs -/

section

variable {b : Machine} {root : Node}
  (hmethods : ∀ d ∈ b.heap.classes, ∀ method ∈ d.methods, method.body.IsBody ∧ root.Has method.body)
  (hlive : ∀ span cls args, root.Has (.new span cls args) → ∀ m, b.Extends m → m.live (.cls cls) = true)
include hmethods

/-- A call fails at its own place or in the body of a method of the tree. -/
theorem faults_callMethod {limit : Option Nat} {n : Nat}
    (hnode : ∀ node, root.Has node → Faults b.Extends A (exec limit n node)) {o : ObjId} {name : String}
    {args : List Value} {span : Span} {m : Machine} (hm : b.Extends m)
    (hfound : m.target? o name args = none →
      A (.methodNotFound (m.heap.classOf o).name name args.length) span)
    (hlimit : ∀ k, A (.recursionLimit k) span) :
    let r := callMethod limit (exec limit n) o name args span m
    (r.2 = r.2 ∧ b.Extends r.2) ∧ EndsAlike (fun fault span _ => A fault span) r.1 r.1 := by
  refine Alike.callMethod (Machine.Extends.simulation b) ⟨rfl, hm⟩ hfound hlimit
    fun method ht method' ht' => ?_
  cases Option.mem_unique ht ht'
  obtain ⟨d, hd, hmethod⟩ := Heap.exists_of_findMethod? ht
  obtain ⟨hbody, hhas⟩ := hmethods d (hm.classes ▸ hd) method hmethod
  exact ⟨hnode _ hhas, .inl (returnless_of_isBody hbody limit n)⟩

include hlive

/-- The errors of a run are those of nodes of the tree. -/
theorem faults_exec (hgone : ∀ span, A (.typeError .released) span)
    (hA : ∀ node fault, root.Has node → node.Raises fault → A fault node.span) (limit : Option Nat) (n : Nat) :
    (∀ node, root.Has node → Faults b.Extends A (exec limit n node)) ∧
      ∀ span, (∀ k, A (.recursionLimit k) span) → ∀ v, Faults b.Extends A (text limit n span v) := by
  have h := Machine.Extends.simulation b
  -- the machine's own calls may stop, with an error that has no place
  let stop : RuntimeError := .output ""
  induction n with
  | zero => exact ⟨fun _ _ => .throw .exhausted, fun _ _ _ => .throw .exhausted⟩
  | succ n ih =>
    obtain ⟨hnode, htext⟩ := ih
    have hown : ∀ span, (∀ k, A (.recursionLimit k) span) → ∀ o name vs,
        Faults b.Extends A (sureCall stop (callMethod limit (exec limit n)) o name vs span) := by
      rintro span hlimit o name vs m _ ⟨rfl, hm⟩
      by_cases hmethod : m.heap.hasMethod o name vs.length = true
      · rw [sureCall_of_hasMethod hmethod]
        refine faults_callMethod hmethods hnode hm (fun hnone => ?_) hlimit
        rw [Heap.hasMethod, show m.heap.findMethod? _ _ _ = none from hnone] at hmethod
        cases hmethod
      · rw [sureCall_of_not_hasMethod hmethod]
        exact ⟨⟨rfl, hm⟩, .error (.output "")⟩
    constructor
    · intro node hnode'
      have hself := fun fault => hA node fault hnode'
      have hlimit : (∀ k, node.Raises (.recursionLimit k)) → ∀ k, A (.recursionLimit k) node.span :=
        fun hraises k => hself _ (hraises k)
      have hcall : (∀ cls name k, node.Raises (.methodNotFound cls name k)) →
          (∀ k, node.Raises (.recursionLimit k)) → ∀ o name vs,
            Faults b.Extends A (fun m => callMethod limit (exec limit n) o name vs node.span m) := by
        rintro hfound hraises o name vs m _ ⟨rfl, hm⟩
        exact faults_callMethod hmethods hnode hm (fun _ => hself _ (hfound _ _ _)) (hlimit hraises)
      rw [exec, ← execOver_sure stop]
      refine .execOver h (.refl fun c hc => ?_) hself (hgone _) ?_ ?_ fun hraises => htext _ (hlimit hraises)
      · exact hnode c (hnode'.trans (.child (Node.mem_children_of_mem_parts hc) (.self c)))
      · rintro s cls args rfl
        refine .inl ?_
        rintro m _ ⟨rfl, hm⟩
        exact hlive s cls args hnode' m hm
      · intro hraises
        cases node with
        | call s object method args => exact hcall (fun _ _ _ => trivial) hraises
        | arith s op l r => exact hcall (fun _ _ _ => hraises 0) hraises
        | _ => exact hown _ (hlimit hraises)
    · intro span hlimit v
      rw [text, ← textOver_sure stop]
      exact .textOver h (hgone span) (fun o => hown span hlimit o strName []) (htext span hlimit) v

end

end Exec

open Exec

/-- A node outside all bodies of methods is one of the tree. -/
theorem Node.Outside.has {n c : Node} (h : n.Outside c) : n.Has c := by
  induction h with
  | self => exact .self _
  | part _ hc _ ih => exact .child (Node.mem_children_of_mem_parts hc) ih

/-- An error of a program that has been read points at a node of the program that can fail in this way, and
at one outside all methods if it is a stray `return`.  The calls that the machine makes of its own accord
never fail to find their methods. -/
theorem ofTokens_blames {unit : Nat} {tokens : List Token} {root : Node}
    (h : Node.ofTokens unit tokens = .ok root) (limit : Option Nat) (sink : Sink) (fuel : Nat) :
    let start := Machine.load { sink := sink } root
    (∀ fault span, (start.interpret limit fuel root).1 = some (.error (.raised fault span)) →
      ∃ node, root.Has node ∧ node.span = span ∧ node.Raises fault ∧
        (fault = .returnOutsideMethod → root.Outside node)) ∧
    ∀ stop, sure stop limit fuel root start = exec limit fuel root start := by
  intro start
  refine ⟨fun fault span hend => ?_, fun stop => by rw [(sure_eq_exec stop limit fuel).1]⟩
  obtain ⟨hclasses, hbodied⟩ := ofTokens_bodied h sink
  obtain ⟨b, hrun⟩ := ofTokens_run h
  have hclosed := hrun.classesClosed
  have hmethods : ∀ d ∈ start.heap.classes, ∀ method ∈ d.methods,
      method.body.IsBody ∧ root.Has method.body := by
    intro d hd method hmethod
    obtain ⟨s, hdef⟩ := Node.mem_classes_iff.1 (hclasses d hd)
    exact ⟨hbodied d hd method hmethod, hdef.trans (.child (List.mem_map_of_mem hmethod) (.self _))⟩
  have hlive : ∀ s cls args, root.Has (.new s cls args) → ∀ m, start.Extends m → m.live (.cls cls) = true := by
    intro s cls args hnew m hm
    obtain ⟨d, hd, rfl⟩ := hclosed.used s cls args hnew
    exact ((Machine.atHand_load hclosed { sink := sink }).of_extends hm).live hd
  let blame (fault : RuntimeFault) (span : Span) : Prop :=
    fault = .typeError .released ∨ ∃ node, root.Has node ∧ node.span = span ∧ node.Raises fault
  have hfaults : Faults start.Extends blame (exec limit fuel root) :=
    (faults_exec hmethods hlive (fun _ => .inl rfl)
      (fun node _ hnode hraises => .inr ⟨node, hnode, rfl, hraises⟩) limit fuel).1 root (.self root)
  have hblamed := (hfaults start start ⟨rfl, .refl start⟩).2
  have hstarting : ({ sink := sink } : Machine).Starting :=
    ⟨Scope.not_shares_empty, rfl, List.forall_mem_nil _,
      fun _ x o hshares => absurd hshares (Scope.not_shares_empty x o)⟩
  have hfine := (((handleWatch_sure limit).keeps .exhausted fuel).1 root start (hstarting.load root).tidy
    (List.forall_mem_nil _)).2.1
  have hstray := ((Machine.Extends.invariant_of_bodied hbodied).exec limit fuel root trivial (.refl start)).2
  replace hend : Machine.verdict (exec limit fuel root start).1 = some (.error (.raised fault span)) := hend
  -- a stray `return` is a signal of the run itself; bodies of methods have none (`hstray`)
  rcases hr : exec limit fuel root start with ⟨s | v, m⟩
  · rw [hr] at hend hblamed hfine hstray
    cases s with
    | returning v s =>
      cases hend
      obtain ⟨value, houtside⟩ := exists_outside_of_returning hr
      exact ⟨_, houtside.has, rfl, trivial, fun _ => houtside⟩
    | error e =>
      cases hend
      rcases hblamed with - | (⟨-⟩ | hblame)
      rcases hblame with rfl | ⟨node, hnode, hspan, hraises⟩
      · exact absurd rfl (hfine span)
      · exact ⟨node, hnode, hspan, hraises, fun hfault => absurd ⟨span, hfault ▸ rfl⟩ hstray⟩
    | exhausted => cases hend
  · rw [hr] at hend
    cases hend

/-- A division by zero in the method for a text points at the division, not at what prints the text. -/
theorem ofTokens_blames_division :
    let tokens : List Token := ([.keyword .kClass, .name "A", .char ':', .newline, .indent, .keyword .kDef,
        .name "__str__", .char '(', .char ')', .char ':', .newline, .indent, .keyword .kReturn] :
          List TokenKind).map (fun k => ⟨k, {}⟩) ++
      [⟨.number 1, ⟨37, 38, 3, 12⟩⟩, ⟨.char '/', ⟨39, 40, 3, 14⟩⟩, ⟨.number 0, ⟨41, 42, 3, 16⟩⟩] ++
      ([.newline, .dedent, .dedent, .keyword .kPrint, .name "A", .char '(', .char ')', .newline, .eof] :
          List TokenKind).map (fun k => ⟨k, {}⟩)
    ∃ root, Node.ofTokens 0 tokens = .ok root ∧
      (Machine.interpret (Machine.load {} root) none 9 root).1 =
        some (.error (.raised .divisionByZero ⟨37, 42, 3, 12⟩)) ∧
      ∃ node, root.Has node ∧ node.span = ⟨37, 42, 3, 12⟩ ∧ node.Raises .divisionByZero := by
  intro tokens
  let quotient : Node :=
    .arith ⟨37, 42, 3, 12⟩ .div (.literal ⟨37, 38, 3, 12⟩ (.int 1)) (.literal ⟨41, 42, 3, 16⟩ (.int 0))
  let body : Node := .methodBody {} (.block {} [.ret ⟨0, 42, 0, 0⟩ quotient])
  let d : ClassDecl := ⟨⟨0, "A"⟩, none, [⟨"__str__", [], body⟩]⟩
  let root : Node := .block {} [.classDef {} d, .print {} [.new {} ⟨0, "A"⟩ []]]
  have h : Node.ofTokens 0 tokens = .ok root := rfl
  have hrun : (Machine.interpret (Machine.load {} root) none 9 root).1 =
      some (.error (.raised .divisionByZero ⟨37, 42, 3, 12⟩)) := by
    dsimp only [root, d, body, quotient]
    decide +kernel
  obtain ⟨node, hnode, hspan, hraises, -⟩ := (ofTokens_blames h none {} 9).1 _ _ hrun
  exact ⟨root, h, hrun, node, hnode, hspan, hraises⟩

end ClassScript

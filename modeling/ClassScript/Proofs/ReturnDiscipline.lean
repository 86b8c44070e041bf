import ClassScript.Proofs.ClassesAtHand
import ClassScript.Proofs.Reaching

/-!
# What returns do

In the tree of a program that has been read a `return` ends the body of the method that it stands in, and
its value is that of the call; where it stands in no body, it is the error of the run.  No call ever fails
for a `return` that is left over, which can be so in other trees only.  Main statement: `ofTokens_returns`.
-/

namespace ClassScript

namespace Machine

/-- The methods of a machine have bodies where a `return` ends. -/
def Bodied (m : Machine) : Prop := ∀ d ∈ m.heap.classes, ∀ method ∈ d.methods, method.body.IsBody

/-- From a machine with such methods, no run ends with a stray `return` in a call. -/
theorem Extends.invariant_of_bodied {b : Machine} (hb : b.Bodied) :
    Invariant b.Extends (fun _ => True) fun e => ¬ e.Stray where
  __ := Extends.invariant b
  error he := he
  body hm hfound := by
    obtain ⟨d, hd, hmethod⟩ := Heap.exists_of_findMethod? hfound
    exact ⟨trivial, .inl (hb d (hm.classes ▸ hd) _ hmethod)⟩

/-- The classes of a machine with a tree loaded are those of the tree and those from before. -/
theorem mem_classes_load {m : Machine} {root : Node} {d : ClassDecl} :
    d ∈ (m.load root).heap.classes ↔ d ∈ root.classes ∨ d ∈ m.heap.classes := by
  show d ∈ root.classes.reverse ++ m.heap.classes ↔ _
  rw [List.mem_append, List.mem_reverse]

/-- Outside of all methods a stray `return` is a `return` on its way, unless it comes of a call. -/
theorem verdict_eq_stray_iff {r : Except Signal Value} {span : Span} :
    verdict r = some (.error (.raised .returnOutsideMethod span)) ↔
      (∃ v, r = .error (.returning v span)) ∨ r = .error (.error (.raised .returnOutsideMethod span)) := by
  constructor
  · intro h
    match r, h with
    | .error (.returning v _), h =>
      cases h
      exact .inl ⟨v, rfl⟩
    | .error (.error _), h =>
      cases h
      exact .inr rfl
  · rintro (⟨v, rfl⟩ | rfl)
    · rfl
    · rfl

end Machine

namespace Exec

/-- A watch for calls: that they come to methods of a tree only, and that none of them fails for a `return`
that is left over. -/
def Watch.calls (root : Node) : Watch where
  calling _ o name args _ m := ∀ method ∈ m.target? o name args, ∃ d ∈ root.classes, method ∈ d.methods
  called _ _ r _ := ∀ e, r = .error (.error e) → ¬ e.Stray

/-- What calls of a method give: a value if its body comes to a `return` of it, when nothing else is done
in the body, and nothing if the body ends by itself. -/
def Answers (limit : Option Nat) (n : Nat) (method : Method) (body : Node) : Prop :=
  ∀ o name args span (m : Machine), m.target? o name args = some method → (∀ k ∈ limit, m.depth < k) →
    ∀ v m', callMethod limit (exec limit (n + 1)) o name args span m = (.ok v, m') ↔
      ∃ m₁, m' = m.behind m₁ ∧
        ((∃ place value, Returns limit n body (m.inBody o name args method) place value v m₁) ∨
          v = .none ∧ ∃ w, exec limit n body (m.inBody o name args method) = (.ok w, m₁))

variable {limit : Option Nat} {n : Nat}

theorem answers_of_regular {method : Method} {s : Span} {body : Node}
    (hbody : method.body = .methodBody s body) (hreg : body.Regular) : Answers limit n method body := by
  intro o name args span m hfound hdepth v m'
  have hcall : callMethod limit (exec limit (n + 1)) o name args span m =
      (atCall (atBody (exec limit n body (m.inBody o name args method)).1),
        m.behind (exec limit n body (m.inBody o name args method)).2) := by
    rw [callMethod_of_found hfound hdepth, hbody]
    show (atCall (returned (exec limit n body) _).1, m.behind (returned (exec limit n body) _).2) = _
    rw [returned_apply]
  rw [hcall]
  constructor
  · intro h
    obtain ⟨hv, rfl⟩ := Prod.mk.inj h
    refine ⟨_, rfl, ?_⟩
    rcases hr : exec limit n body (m.inBody o name args method) with ⟨s' | w, m₁⟩
    · rw [hr] at hv
      cases s' with
      | returning u place =>
        cases hv
        obtain ⟨value, hreturns⟩ := exists_returns hreg hr
        exact .inl ⟨place, value, hreturns⟩
      | error e => cases hv
      | exhausted => cases hv
    · rw [hr] at hv
      cases hv
      exact .inr ⟨rfl, w, rfl⟩
  · rintro ⟨m₁, rfl, ⟨place, value, hreturns⟩ | ⟨rfl, w, hw⟩⟩
    · rw [hreturns.exec_eq]
      rfl
    · rw [hw]
      rfl

/-- A `return` that comes out of the body of a call is an error at its own place. -/
theorem callMethod_of_returning {o : ObjId} {name : String} {args : List Value} {m m' : Machine}
    {method : Method} {v : Value} {span : Span} (hfound : m.target? o name args = some method)
    (hdepth : ∀ k ∈ limit, m.depth < k)
    (h : exec limit n method.body (m.inBody o name args method) = (.error (.returning v span), m'))
    (place : Span) :
    callMethod limit (exec limit n) o name args place m =
      (.error (.error (.raised .returnOutsideMethod span)), m.behind m') := by
  rw [callMethod_of_found hfound hdepth, h]
  rfl

end Exec

open Exec

/-- A `return` that comes out of a tree is an error at its own place. -/
theorem Machine.interpret_of_returning {limit : Option Nat} {n : Nat} {node : Node} {m m' : Machine}
    {v : Value} {span : Span} (h : exec limit n node m = (.error (.returning v span), m')) :
    m.interpret limit n node = (some (.error (.raised .returnOutsideMethod span)), m') := by
  show (verdict (exec limit n node m).1, (exec limit n node m).2) = _
  rw [h]
  rfl

/-- A run ends with a stray `return` if it comes to one outside of all methods. -/
theorem Machine.interpret_stray_iff {m : Machine} (hm : m.Bodied) {root : Node} (hroot : root.Regular)
    (limit : Option Nat) (n : Nat) (span : Span) :
    (m.interpret limit n root).1 = some (.error (.raised .returnOutsideMethod span)) ↔
      ∃ value v m', Returns limit n root m span value v m' := by
  show verdict (exec limit n root m).1 = _ ↔ _
  rw [verdict_eq_stray_iff]
  constructor
  · rintro (⟨v, hv⟩ | he)
    · obtain ⟨value, hreturns⟩ := exists_returns hroot (Prod.ext hv rfl)
      exact ⟨value, v, _, hreturns⟩
    · have hend := ((Extends.invariant_of_bodied hm).exec limit n root trivial (.refl m)).2
      rw [he] at hend
      exact absurd ⟨span, rfl⟩ hend
  · rintro ⟨value, v, m', hreturns⟩
    rw [hreturns.exec_eq]
    exact .inl ⟨v, rfl⟩

theorem Machine.Bodied.throughout {m : Machine} (hm : m.Bodied) {root : Node}
    (hclasses : ∀ d ∈ m.heap.classes, d ∈ root.classes) (limit : Option Nat) (n : Nat) (node : Node) :
    Throughout (.calls root) limit n node m := by
  refine (Extends.invariant_of_bodied hm).throughout ?_ limit n trivial (.refl m)
  refine ⟨fun _ _ _ _ => trivial, fun _ _ _ _ _ _ => trivial, ?_, ?_, fun _ _ _ _ _ => trivial⟩
  · intro _ o name args _ m' hext _ _ method hfound
    obtain ⟨d, hd, hmethod⟩ := Heap.exists_of_findMethod? hfound
    exact ⟨d, hclasses d (hext.classes ▸ hd), hmethod⟩
  · intro _ _ r _ _ hend e he
    rw [he] at hend
    exact hend

/-- The methods of a program that has been read have regular bodies where a `return` ends. -/
theorem ofTokens_methods {unit : Nat} {tokens : List Token} {root : Node}
    (h : Node.ofTokens unit tokens = .ok root) {d : ClassDecl} (hd : d ∈ root.classes) {method : Method}
    (hm : method ∈ d.methods) : ∃ span body, method.body = .methodBody span body ∧ body.Regular := by
  have hroot := ofTokens_regular h
  obtain ⟨span, hdef⟩ := Node.mem_classes_iff.1 hd
  have hreg : method.body.Regular := (hroot.has hdef).child (List.mem_map_of_mem hm)
  obtain ⟨s, body, hbody⟩ := (hroot _ hdef).bodies method hm
  rw [hbody] at hreg
  exact ⟨s, body, hbody, hreg.child List.mem_cons_self⟩

/-- A program that has been read and is loaded where nothing was has its own methods and no others. -/
theorem ofTokens_bodied {unit : Nat} {tokens : List Token} {root : Node}
    (h : Node.ofTokens unit tokens = .ok root) (sink : Sink) :
    (∀ d ∈ (Machine.load { sink := sink } root).heap.classes, d ∈ root.classes) ∧
      (Machine.load { sink := sink } root).Bodied := by
  have hclasses : ∀ d ∈ (Machine.load { sink := sink } root).heap.classes, d ∈ root.classes :=
    fun d hd => (Machine.mem_classes_load.1 hd).resolve_right List.not_mem_nil
  refine ⟨hclasses, fun d hd method hm => ?_⟩
  obtain ⟨span, body, hbody, -⟩ := ofTokens_methods h (hclasses d hd) hm
  exact ⟨span, body, hbody⟩

/-- In a program that has been read, operands, arguments and conditions never end with a `return`.  One in
the body of a method ends the body and gives its value to the call; a body without one gives nothing.  A run
fails for a stray `return` if and only if it comes to one outside of all bodies, and never at the end of a
call.  In any tree whatsoever, a `return` passes all nodes but the bodies of methods, and where it comes out
of the tree or of the body of a call it is an error at its own place. -/
theorem ofTokens_returns :
    (∀ {unit : Nat} {tokens : List Token} {root : Node}, Node.ofTokens unit tokens = .ok root →
      ∀ (limit : Option Nat) (sink : Sink) (n : Nat),
        (∀ node c, root.Has node → c ∈ node.operands → Returnless (exec limit n c)) ∧
        (∀ d ∈ root.classes, ∀ method ∈ d.methods,
          ∃ span body, method.body = .methodBody span body ∧ Answers limit n method body) ∧
        let start := Machine.load { sink := sink } root
        Throughout (.calls root) limit n root start ∧
        ∀ span, (start.interpret limit n root).1 = some (.error (.raised .returnOutsideMethod span)) ↔
          ∃ value v m, root.Outside (.ret span value) ∧ Returns limit n root start span value v m) ∧
    ∀ limit n node m v span m',
      (∀ value, Escapes limit n node m span value v m' →
        exec limit n node m = (.error (.returning v span), m')) ∧
      (exec limit n node m = (.error (.returning v span), m') →
        (∃ value, node.Outside (.ret span value)) ∧
        m.interpret limit n node = (some (.error (.raised .returnOutsideMethod span)), m') ∧
        ∀ (b : Machine) o name args place method, b.target? o name args = some method →
          (∀ k ∈ limit, b.depth < k) → method.body = node → b.inBody o name args method = m →
            callMethod limit (exec limit n) o name args place b =
              (.error (.error (.raised .returnOutsideMethod span)), b.behind m')) := by
  constructor
  · intro unit tokens root h limit sink n
    have hroot := ofTokens_regular h
    refine ⟨?_, ?_, ?_⟩
    · intro node c hnode hc
      exact returnless_of_isExpression ((hroot node hnode).operands c hc) limit n
    · intro d hd method hm
      obtain ⟨span, body, hbody, hreg⟩ := ofTokens_methods h hd hm
      exact ⟨span, body, hbody, answers_of_regular hbody hreg⟩
    · intro start
      obtain ⟨hclasses, hbodied⟩ := ofTokens_bodied h sink
      refine ⟨hbodied.throughout hclasses limit n root, fun span => ?_⟩
      rw [Machine.interpret_stray_iff hbodied hroot]
      constructor
      · rintro ⟨value, v, m, hreturns⟩
        exact ⟨value, v, m, hreturns.outside, hreturns⟩
      · rintro ⟨value, v, m, -, hreturns⟩
        exact ⟨value, v, m, hreturns⟩
  · intro limit n node m v span m'
    refine ⟨fun _ hescapes => hescapes.exec_eq, fun h => ?_⟩
    refine ⟨exists_outside_of_returning h, Machine.interpret_of_returning h, ?_⟩
    rintro b o name args place method hfound hdepth rfl rfl
    exact callMethod_of_returning hfound hdepth h place

/-- A method that returns a number before it would print one, with a `return` behind its class; and a tree
in which a `return` is an operand. -/
theorem ofTokens_returns_early :
    (let tokens : List Token := ([.keyword .kClass, .name "A", .char ':', .newline, .indent, .keyword .kDef,
        .name "f", .char '(', .char ')', .char ':', .newline, .indent, .keyword .kIf, .keyword .kTrue,
        .char ':', .newline, .indent, .keyword .kReturn, .number 1, .newline, .dedent, .keyword .kPrint,
        .number 2, .newline, .dedent, .dedent] : List TokenKind).map (fun k => ⟨k, {}⟩) ++
          [⟨.keyword .kReturn, ⟨50, 56, 6, 1⟩⟩, ⟨.newline, {}⟩, ⟨.eof, {}⟩]
      ∃ root, Node.ofTokens 0 tokens = .ok root ∧
        let start := Machine.load {} root
        (start.interpret none 3 root).1 = some (.error (.raised .returnOutsideMethod ⟨50, 56, 6, 1⟩)) ∧
        ∃ m, callMethod none (exec none 6) 0 "f" [] {}
            { start with heap := start.heap.allocate ⟨0, "A"⟩ } = (.ok (.int 1), m) ∧ m.sink = {}) ∧
    (Machine.interpret {} none 3 (.not {} (.ret ⟨4, 12, 1, 5⟩ (.literal {} (.int 1))))).1 =
      some (.error (.raised .returnOutsideMethod ⟨4, 12, 1, 5⟩)) := by
  constructor
  · intro tokens
    let early : Node := .ifElse {} (.literal {} (.bool true)) (.block {} [.ret {} (.literal {} (.int 1))]) none
    let body : Node := .block {} [early, .print {} [.literal {} (.int 2)]]
    let method : Method := ⟨"f", [], .methodBody {} body⟩
    let d : ClassDecl := ⟨⟨0, "A"⟩, none, [method]⟩
    let stray : Node := .ret ⟨50, 56, 6, 1⟩ (.literal ⟨50, 56, 6, 1⟩ .none)
    have h : Node.ofTokens 0 tokens = .ok (.block {} [.classDef {} d, stray]) := rfl
    refine ⟨_, h, ?_⟩
    intro start
    constructor
    · have hdef : block (exec none 2) .none [.classDef {} d] start = (.ok .none, _) := rfl
      obtain ⟨m, hway⟩ : ∃ m, Reaches none 2 stray m 3 (.block {} [.classDef {} d, stray]) start :=
        ⟨_, .block hdef .here⟩
      refine ((ofTokens_returns.1 h none {} 3).2.2.2 ⟨50, 56, 6, 1⟩).2 ?_
      exact ⟨_, .none, _, hway.outside, 1, m, m, hway, rfl, rfl⟩
    · have hd : d ∈ (Node.block {} [.classDef {} d, stray]).classes :=
        Node.mem_classes_iff.2 ⟨{}, .child List.mem_cons_self (.self _)⟩
      obtain ⟨_, _, hbody, hanswers⟩ :=
        (ofTokens_returns.1 h none {} 5).2.1 d hd method (List.mem_singleton_self method)
      cases hbody
      let m : Machine := { start with heap := start.heap.allocate ⟨0, "A"⟩ }
      have hfront (n : Nat) (m : Machine) : block (exec none n) .none [] m = (.ok .none, m) := rfl
      let m₁ : Machine := m.inBody 0 "f" [] method
      have hway : Reaches none 2 (.ret {} (.literal {} (.int 1)))
          { m₁ with held := [.none, .bool true, .none] } 5 body m₁ :=
        .block (hfront 4 _) (.yes rfl rfl (.block (hfront 2 _) .here))
      have hfound : m.target? 0 "f" [] = some method := by
        have hclasses : start.heap.classes = [d] := by
          show (Node.block {} [.classDef {} d, stray]).classes.reverse ++ [] = [d]
          simp [Node.classes_eq, Node.children, Node.defines, d, stray, method, body, early]
        show (methodNamed? start.heap.classes _ "f").filter _ = _
        rw [hclasses]
        rfl
      have hcall := hanswers 0 "f" [] {} m hfound (fun n hn => by cases hn) (.int 1)
      exact ⟨_, (hcall _).2 ⟨_, rfl, .inl ⟨{}, _, 1, _, _, hway, rfl, rfl⟩⟩, rfl⟩
  · let stray : Node := .ret ⟨4, 12, 1, 5⟩ (.literal {} (.int 1))
    have hvisit : Visits none 2 (.not {} stray) {} stray {} := by
      refine ⟨.exhausted, ?_⟩
      have hhalt : haltAt none 2 stray {} .exhausted stray {} = (.error .exhausted, {}) := if_pos ⟨rfl, rfl⟩
      show ((haltAt none 2 stray {} .exhausted stray >>= fun v => return .bool !v.truthy) : Exec Value) {} ≠ _
      rw [bind_apply, hhalt]
      intro heq
      cases (Prod.mk.inj heq).1
    have hpass : Passes none 2 stray {} 3 (.not {} stray) {} := .part (by rintro ⟨_, _, ⟨⟩⟩) hvisit .here
    have hexec := (ofTokens_returns.2 none 3 (.not {} stray) {} (.int 1) ⟨4, 12, 1, 5⟩ {}).1 _
      ⟨1, _, _, hpass, rfl, rfl⟩
    rw [((ofTokens_returns.2 _ _ _ _ _ _ _).2 hexec).2.1]

end ClassScript

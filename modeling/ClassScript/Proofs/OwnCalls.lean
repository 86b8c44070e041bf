import ClassScript.Proofs.Calls
import ClassScript.Proofs.ClassesAtHand

/-!
# Calls that no program writes

A method call and a sum name the method that they call.  All other calls are the machine's own: new objects
are set up, texts are asked for, and objects are compared.  The machine looks first whether there is such a
method, so none of these calls ever fails to find it.  Main statement: a run is the same if they stop where
there is no method (`sure_eq_exec`).
-/

namespace ClassScript.Exec

/-- Calls a method, but stops where there is none that takes so many arguments. -/
def sureCall (stop : RuntimeError) (call : Call) : Call := fun o name args span => do
  if (← get).heap.hasMethod o name args.length then call o name args span else throw (.error stop)

/-- How methods are called from a node, where its own calls should find them. -/
def callFrom (stop : RuntimeError) (call : Call) : Node → Call
  | .call _ _ _ _ | .arith _ _ _ _ => call
  | _ => sureCall stop call

mutual

/-- Carries out a node as `exec` does, but stops where the machine calls a method of its own accord that is
not there. -/
def sure (stop : RuntimeError) (limit : Option Nat) : Nat → Node → Exec Value
  | 0, _ => throw .exhausted
  | n + 1, node => execOver (callFrom stop (callMethod limit (sure stop limit n)) node) (sure stop limit n)
      (sureText stop limit n) node

/-- The text of a value, as `text` gives it, or a stop. -/
def sureText (stop : RuntimeError) (limit : Option Nat) : Nat → Span → Value → Exec String
  | 0, _, _ => throw .exhausted
  | n + 1, span, v =>
    textOver (sureCall stop (callMethod limit (sure stop limit n))) (sureText stop limit n) span v

end

section

variable {stop : RuntimeError} {call : Call} {o : ObjId} {name : String} {args : List Value} {span : Span}
  {m : Machine}

theorem sureCall_of_hasMethod (h : m.heap.hasMethod o name args.length = true) :
    sureCall stop call o name args span m = call o name args span m := by
  show (if m.heap.hasMethod o name args.length then _ else _ : Exec Value) m = _
  rw [if_pos h]

theorem sureCall_of_not_hasMethod (h : ¬ m.heap.hasMethod o name args.length = true) :
    sureCall stop call o name args span m = (.error (.error stop), m) := by
  show (if m.heap.hasMethod o name args.length then _ else _ : Exec Value) m = _
  rw [if_neg h]
  rfl

end

/-! ### Texts and comparisons -/

section

variable (stop : RuntimeError) (call : Call)

theorem textOver_sure (text : Span → Value → Exec String) :
    textOver (sureCall stop call) text = textOver call text := by
  funext span v m
  rcases textOver_cases span v m with ⟨r, -, htext⟩ | ⟨a, o, -, -, hmethod, htext⟩
  · rw [htext, htext]
  · have hfound : ({ m with held := .obj (.owned o) :: m.held } : Machine).heap.hasMethod o strName
        ([] : List Value).length = true := hmethod
    rw [htext, htext, holding_apply, holding_apply, bind_apply, bind_apply, sureCall_of_hasMethod hfound]

theorem delegate_sure : delegate (sureCall stop call) = delegate call := by
  funext span method op a right m
  unfold delegate
  rw [bind_apply, bind_apply, object_apply]
  cases m.resolve a with
  | none => rfl
  | some o =>
    show (if m.heap.hasMethod o method 1 then _ else _ : Exec Bool) m =
      (if m.heap.hasMethod o method 1 then _ else _ : Exec Bool) m
    split
    · rename_i hmethod
      rw [bind_apply, bind_apply]
      dsimp only [tell]
      show ((sureCall stop call o method [right] span >>= _ : Exec Bool)
        (m.told (.delegated (m.heap.classOf o).name method))) =
        (call o method [right] span >>= _ : Exec Bool) (m.told (.delegated (m.heap.classOf o).name method))
      rw [bind_apply, bind_apply, sureCall_of_hasMethod hmethod]
    · rfl

theorem equal_sure : equal (sureCall stop call) = equal call := by
  funext span left right
  unfold equal
  rw [delegate_sure]

theorem less_sure : less (sureCall stop call) = less call := by
  funext span left right
  unfold less
  rw [delegate_sure]

theorem compare_sure : compare (sureCall stop call) = compare call := by
  funext span op left right
  unfold compare greater
  rw [equal_sure, less_sure]

end

/-! ### New objects -/

theorem length_evalArgs {e : Node → Exec Value} {args : List Node} {m m' : Machine} {vs : List Value}
    (h : evalArgs e args m = (.ok vs, m')) : vs.length = args.length := by
  induction args generalizing m m' vs with
  | nil =>
    cases h
    rfl
  | cons a rest ih =>
    obtain ⟨v, m₁, -, hrest⟩ := exists_of_bind_eq_ok h
    obtain ⟨ws, m₂, hws, hpure⟩ := exists_of_bind_eq_ok hrest
    cases hpure
    rw [holding_apply] at hws
    have hrest : (evalArgs e rest { m₁ with held := v :: m₁.held }).1 = .ok ws := congrArg Prod.fst hws
    rw [List.length_cons, List.length_cons, ih (Prod.ext hrest rfl)]

/-- Arguments leave the classes of objects as they are. -/
theorem hasMethod_evalArgs (limit : Option Nat) (n : Nat) (args : List Node) {m : Machine} {o : ObjId}
    (ho : o < m.heap.fresh) (name : String) (arity : Nat) :
    (evalArgs (exec limit n) args m).2.heap.hasMethod o name arity = m.heap.hasMethod o name arity := by
  have h := Machine.Extends.invariant m
  have hargs : ∀ a ∈ args, True := fun _ _ => trivial
  have hext := ((h.pieces limit n []).evalArgs h.rules hargs m (.refl m)).2.1
  rw [Heap.hasMethod, Heap.findMethod?, Heap.getMethod?, hext.classes, hext.classOf o ho]
  rfl

theorem setUp_sure {stop : RuntimeError} {limit : Option Nat} {n : Nat} {args : List Node} {span : Span}
    {m : Machine} {o : ObjId} (ho : o < m.heap.fresh) :
    setUp (sureCall stop (callMethod limit (exec limit n))) (exec limit n) o args span m =
      setUp (callMethod limit (exec limit n)) (exec limit n) o args span m := by
  show (if m.heap.hasMethod o initName args.length then _ else _ : Exec Unit) m =
    (if m.heap.hasMethod o initName args.length then _ else _ : Exec Unit) m
  split
  · rename_i hmethod
    -- the method was looked up before the arguments, and is called behind them
    have hkept := hasMethod_evalArgs limit n args (m := { m with held := .obj (.owned o) :: m.held }) ho
      initName args.length
    rw [holding_apply, holding_apply, bind_apply, bind_apply]
    rcases hr : evalArgs (exec limit n) args { m with held := .obj (.owned o) :: m.held } with ⟨s | vs, m'⟩
    · rfl
    · rw [hr] at hkept
      have hfound : m'.heap.hasMethod o initName vs.length = true := by
        rw [length_evalArgs hr]
        exact hkept.trans hmethod
      have hcall : (discard (sureCall stop (callMethod limit (exec limit n)) o initName vs span) : Exec Unit) m' =
          (discard (callMethod limit (exec limit n) o initName vs span) : Exec Unit) m' := by
        show ((sureCall stop (callMethod limit (exec limit n)) o initName vs span >>= fun _ => pure ()) :
          Exec Unit) m' = (callMethod limit (exec limit n) o initName vs span >>= fun _ => pure () : Exec Unit) m'
        rw [bind_apply, bind_apply, sureCall_of_hasMethod hfound]
      dsimp only
      rw [hcall]
  · rfl

theorem instantiate_sure (stop : RuntimeError) (limit : Option Nat) (n : Nat) (cls : ClassId)
    (args : List Node) (span : Span) :
    instantiate (sureCall stop (callMethod limit (exec limit n))) (exec limit n) cls args span =
      instantiate (callMethod limit (exec limit n)) (exec limit n) cls args span := by
  funext m
  show (if m.live (.cls cls) then _ else _ : Exec Value) m = (if m.live (.cls cls) then _ else _ : Exec Value) m
  split
  · have hcreate : create cls args.length m = (.ok m.heap.fresh,
        { m.told (.newInstance cls.name args.length) with heap := m.heap.allocate cls }) := rfl
    rw [bind_apply, bind_apply, hcreate]
    dsimp only
    rw [bind_apply, bind_apply, setUp_sure]
    show m.heap.fresh < (m.heap.allocate cls).fresh
    rw [Heap.fresh_allocate]
    exact Nat.lt_succ_self _
  · rfl

/-! ### Runs -/

theorem execOver_sure (stop : RuntimeError) (limit : Option Nat) (n : Nat) (node : Node) :
    execOver (callFrom stop (callMethod limit (exec limit n)) node) (exec limit n) (text limit n) node =
      execOver (callMethod limit (exec limit n)) (exec limit n) (text limit n) node := by
  cases node with
  | compare s op l r =>
    show operands (exec limit n) l r (fun a b => do
      return Value.bool (← compare (sureCall stop (callMethod limit (exec limit n))) s op a b)) = _
    rw [compare_sure]
    rfl
  | new s cls args => exact instantiate_sure stop limit n cls args s
  | _ => rfl

/-- The machine's own calls never fail to find their methods: a run is the same if they stop instead. -/
theorem sure_eq_exec (stop : RuntimeError) (limit : Option Nat) (n : Nat) :
    sure stop limit n = exec limit n ∧ sureText stop limit n = text limit n := by
  induction n with
  | zero => exact ⟨rfl, rfl⟩
  | succ n ih =>
    constructor
    · funext node
      rw [sure, ih.1, ih.2, exec]
      exact execOver_sure stop limit n node
    · funext span v
      rw [sureText, ih.1, ih.2, textOver_sure, text]

end ClassScript.Exec

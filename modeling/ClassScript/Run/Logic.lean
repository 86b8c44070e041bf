import ClassScript.Run.Step

/-!
# Logics of actions

A logic of actions has a judgement `R hs Q a b` of two actions: that `a` and `b` are related, in machines
that hold the values `hs`, and that a result is as `Q` says.  Values in use are as `P` says, and what may
be returned and where as `T` says.  There is a rule for every primitive action and for the ways of putting
actions together; what becomes of calls and of the bodies of methods is left to each logic.  Main statement:
a step of execution is as the logic says if what it is made of is (`Pieces.execOver`).
-/

namespace ClassScript

/-- A fault that comes up at a node by itself: not at the end of a call, nor at a limit, nor because an
object is gone. -/
def RuntimeFault.Ordinary : RuntimeFault → Prop
  | .typeError .released | .returnOutsideMethod | .recursionLimit _ => False
  | _ => True

/-- An event that is neither the beginning nor the end of a call. -/
def Event.Single : Event → Prop
  | .enter _ _ _ | .leave => False
  | _ => True

/-- Machines on which whoever handles only values as `P` says sees the same: the heap, the classes that are
alive, and the objects behind such values. -/
structure Machine.Seen (P : Value → Prop) (m m' : Machine) : Prop where
  heap : m.heap = m'.heap
  classes : ∀ c, m.live (.cls c) = m'.live (.cls c)
  objects : ∀ o, P (.obj (.shared o)) → m.live (.object o) = m'.live (.object o)

namespace Machine.Seen

variable {P : Value → Prop} {m m' : Machine} (h : m.Seen P m')
include h

theorem resolve {a : Handle} (ha : P (.obj a)) : m.resolve a = m'.resolve a := by
  cases a with
  | owned o => rfl
  | shared o =>
    show (if m.live (.object o) then some o else none) = if m'.live (.object o) then some o else none
    rw [h.objects o ha]

theorem typeName {v : Value} (hv : P v) : m.typeName v = m'.typeName v := by
  unfold Machine.typeName Heap.typeName
  cases v with
  | obj a =>
    have ha : Heap.resolve m.live a = Heap.resolve m'.live a := h.resolve hv
    simp only [ha, h.heap]
  | _ => rfl

theorem display (heap : Heap) {v : Value} (hv : P v) : heap.display m.live v = heap.display m'.live v := by
  unfold Heap.display
  cases v with
  | obj a =>
    have ha : Heap.resolve m.live a = Heap.resolve m'.live a := h.resolve hv
    simp only [ha]
  | bool b => cases b <;> rfl
  | _ => rfl

end Machine.Seen

namespace Exec

/-- An action that is chosen by a machine does not depend on what has been printed. -/
def Blind {α : Type} (f : Machine → Exec α) : Prop := ∀ m s, f { m with sink := s } = f m

/-- An action that is chosen by a machine depends only on what is seen of it. -/
def Discreet {α : Type} (P : Value → Prop) (f : Machine → Exec α) : Prop := ∀ m m', m.Seen P m' → f m = f m'

theorem Discreet.blind {α : Type} {P : Value → Prop} {f : Machine → Exec α} (h : Discreet P f) : Blind f :=
  fun _ _ => h _ _ ⟨rfl, fun _ => rfl, fun _ _ => rfl⟩

/-- The rules of a judgement of actions that leave the scope and the heap as they are. -/
structure Rules (P : Value → Prop) (T : Value → Span → Prop)
    (R : {α : Type} → List Value → (α → Prop) → Exec α → Exec α → Prop) : Prop where
  /-- Values that are neither objects nor classes are as values should be. -/
  plain : ∀ {v : Value}, (∀ a, v ≠ .obj a) → (∀ c, v ≠ .cls c) → P v
  mono : ∀ {α : Type} {hs js : List Value} {Q Q' : α → Prop} {a b : Exec α}, R hs Q a b →
    (∀ v ∈ hs, v ∈ js) → (∀ x, Q x → Q' x) → R js Q' a b
  pure : ∀ {α : Type} {hs : List Value} {Q : α → Prop} {x : α}, Q x → R hs Q (pure x) (pure x)
  raise : ∀ {α : Type} {hs : List Value} {Q : α → Prop} {fault : RuntimeFault} (span : Span),
    fault.Ordinary → R hs Q (raise fault span) (raise fault span)
  ret : ∀ {hs : List Value} {v : Value} {span : Span}, P v → T v span →
    R hs P (throw (.returning v span)) (throw (.returning v span))
  bind : ∀ {α β : Type} {hs : List Value} {Q : α → Prop} {Q' : β → Prop} {a b : Exec α}
    {f g : α → Exec β}, R hs Q a b → (∀ x, Q x → R hs Q' (f x) (g x)) → R hs Q' (a >>= f) (b >>= g)
  read : ∀ {α : Type} {hs : List Value} {Q : α → Prop} {f g : Machine → Exec α}, Discreet P f →
    Discreet P g → (∀ m, R hs Q (f m) (g m)) → R hs Q (get >>= f) (get >>= g)
  holding : ∀ {α : Type} {hs : List Value} {Q : α → Prop} {a b : Exec α} {v : Value}, P v →
    R (v :: hs) Q a b → R hs Q (holding v a) (holding v b)
  object : ∀ {hs : List Value} {a : Handle} (span : Span), P (.obj a) →
    R hs (fun o => a.id = o ∧ P (.obj (.owned o))) (object a span) (object a span)
  readPath : ∀ {hs : List Value} (path : List String) (span : Span),
    R hs P (readPath path span) (readPath path span)
  write : ∀ {hs : List Value} (text : String), R hs (fun _ => True) (write text) (write text)
  tell : ∀ {hs : List Value} {e : Event}, e.Single → R hs (fun _ => True) (tell e) (tell e)

/-- The rules of a judgement of actions, which may bind names, make objects and set fields. Classes are as
values should be. -/
structure Logic (P : Value → Prop) (T : Value → Span → Prop)
    (R : {α : Type} → List Value → (α → Prop) → Exec α → Exec α → Prop) : Prop extends Rules P T R where
  cls : ∀ c, P (.cls c)
  setName : ∀ {hs : List Value} (x : String) {v : Value}, P v →
    R hs (fun _ : PUnit => True) (modify fun m => { m with scope := m.scope.set x v })
      (modify fun m => { m with scope := m.scope.set x v })
  create : ∀ {hs : List Value} (cls : ClassId) (arity : Nat),
    R hs (fun o => P (.obj (.owned o))) (create cls arity) (create cls arity)
  setField : ∀ {hs : List Value} {o : ObjId} (f : String) {v : Value}, P (.obj (.owned o)) → P v →
    R hs (fun _ : PUnit => True) (modify fun m => { m with heap := m.heap.setField o f v })
      (modify fun m => { m with heap := m.heap.setField o f v })

/-- What two steps are made of: calls of methods on objects that are held, with arguments as values
should be, nodes as `D` says, and texts of such values. -/
structure Pieces (P : Value → Prop) (D : Node → Prop)
    (R : {α : Type} → List Value → (α → Prop) → Exec α → Exec α → Prop) (hs : List Value) (c c' : Call)
    (e e' : Node → Exec Value) (t t' : Span → Value → Exec String) : Prop where
  call : ∀ (a : Handle) name args span, P (.obj a) → P (.obj (.owned a.id)) → (∀ v ∈ args, P v) →
    R (.obj a :: hs) P (c a.id name args span) (c' a.id name args span)
  node : ∀ n, D n → R hs P (e n) (e' n)
  text : ∀ span v, P v → R hs (fun _ => True) (t span v) (t' span v)

section

variable {P : Value → Prop} {T : Value → Span → Prop} {D : Node → Prop}
  {R : {α : Type} → List Value → (α → Prop) → Exec α → Exec α → Prop}

namespace Rules

variable (h : Rules P T R) {hs : List Value}
include h

theorem more {α : Type} {Q : α → Prop} {a b : Exec α} (hab : R hs Q a b) (v : Value) :
    R (v :: hs) Q a b :=
  h.mono hab (fun _ hu => List.mem_cons_of_mem v hu) fun _ hx => hx

theorem bool (b : Bool) : P (.bool b) := h.plain nofun nofun

theorem literal (v : Literal) : P v.toValue := by
  cases v <;> exact h.plain nofun nofun

/-- An action that is chosen by a machine, the same on both sides. -/
theorem look {α : Type} {Q : α → Prop} {f : Machine → Exec α} (hf : Discreet P f) (hr : ∀ m, R hs Q (f m) (f m)) :
    R hs Q (get >>= f) (get >>= f) :=
  h.read hf hf hr

theorem typeName {v : Value} (hv : P v) : R hs (fun _ => True) (typeName v) (typeName v) :=
  h.look (fun _ _ hseen => congrArg Pure.pure (hseen.typeName hv)) fun _ => h.pure trivial

/-- The text of a value that is not found by a method. -/
theorem display {v : Value} (hv : P v) :
    R hs (fun _ => True) (get >>= fun m => get >>= fun n => Pure.pure (m.heap.display n.live v))
      (get >>= fun m => get >>= fun n => Pure.pure (m.heap.display n.live v)) := by
  refine h.look (fun m m' hseen => by simp only [hseen.heap]) fun m => ?_
  exact h.look (fun _ _ hseen => congrArg Pure.pure (hseen.display m.heap hv)) fun _ => h.pure trivial

theorem mismatch (span : Span) (op : Comparator) {left right : Value} (hl : P left) (hr : P right) :
    R hs (fun _ => True) (mismatch span op left right) (mismatch span op left right) :=
  h.bind (h.typeName hl) fun _ _ => h.bind (h.typeName hr) fun _ _ => h.raise span trivial

end Rules

namespace Pieces

variable {hs : List Value} {c c' : Call} {e e' : Node → Exec Value}
  {t t' : Span → Value → Exec String} (h : Rules P T R) (p : Pieces P D R hs c c' e e' t t')
include h p

/-- Parts of steps may rely on more than they need. -/
theorem more (v : Value) : Pieces P D R (v :: hs) c c' e e' t t' where
  call a name args span ha ho hargs := by
    refine h.mono (p.call a name args span ha ho hargs) ?_ fun _ hx => hx
    intro u hu
    rcases List.mem_cons.1 hu with rfl | hu
    · exact List.mem_cons_self
    · exact List.mem_cons_of_mem _ (List.mem_cons_of_mem v hu)
  node n hn := h.more (p.node n hn) v
  text span w hw := h.more (p.text span w hw) v

/-- A receiver that is held already need not be held anew. -/
theorem callHeld {a : Handle} (hmem : .obj a ∈ hs) (name : String) {args : List Value} (span : Span)
    (ha : P (.obj a)) (ho : P (.obj (.owned a.id))) (hargs : ∀ v ∈ args, P v) :
    R hs P (c a.id name args span) (c' a.id name args span) :=
  h.mono (p.call a name args span ha ho hargs) (List.forall_mem_cons.2 ⟨hmem, fun _ hu => hu⟩)
    fun _ hx => hx

/-! ### Calls and texts -/

theorem evalArgs {args : List Node} (hargs : ∀ a ∈ args, D a) :
    R hs (fun vs => ∀ v ∈ vs, P v) (evalArgs e args) (evalArgs e' args) := by
  induction args generalizing hs with
  | nil => exact h.pure (List.forall_mem_nil _)
  | cons a rest ih =>
    obtain ⟨ha, hrest⟩ := List.forall_mem_cons.1 hargs
    refine h.bind (p.node a ha) fun v hv => h.bind (h.holding hv (ih (p.more h v) hrest)) fun vs hvs => ?_
    exact h.pure (List.forall_mem_cons.2 ⟨hv, hvs⟩)

theorem callOn {object : Node} (hobject : D object) (method : String) {args : List Node}
    (hargs : ∀ a ∈ args, D a) (span : Span) :
    R hs P (callOn c e object method args span) (callOn c' e' object method args span) := by
  refine h.bind (p.node object hobject) fun v hv => ?_
  split
  · refine h.bind (h.object span hv) fun o ho => h.holding ho.2 ?_
    refine h.bind ((p.more h _).evalArgs h hargs) fun vs hvs => ?_
    exact p.call (.owned o) method vs span ho.2 ho.2 hvs
  · exact h.bind (h.typeName hv) fun _ _ => h.raise span trivial

theorem setUp {o : ObjId} (ho : P (.obj (.owned o))) {args : List Node} (hargs : ∀ a ∈ args, D a)
    (span : Span) :
    R hs (fun _ => True) (setUp c e o args span) (setUp c' e' o args span) := by
  refine h.read (fun m m' hseen => by simp only [hseen.heap]) (fun m m' hseen => by simp only [hseen.heap])
    fun m => ?_
  split
  · refine h.holding ho (h.bind ((p.more h _).evalArgs h hargs) fun vs hvs => ?_)
    exact h.bind (p.call (.owned o) initName vs span ho ho hvs) fun _ _ => h.pure trivial
  · exact h.pure trivial

theorem instantiate {cls : ClassId} {args : List Node} (hargs : ∀ a ∈ args, D a)
    (hcreate : R hs (fun o => P (.obj (.owned o))) (create cls args.length) (create cls args.length))
    (span : Span) : R hs P (instantiate c e cls args span) (instantiate c' e' cls args span) := by
  refine h.read (fun m m' hseen => by simp only [hseen.classes]) (fun m m' hseen => by simp only [hseen.classes])
    fun m => ?_
  split
  · refine h.bind hcreate fun o ho => ?_
    exact h.bind (p.setUp h ho hargs span) fun _ _ => h.pure ho
  · exact h.raise span trivial

theorem textOver (span : Span) {v : Value} (hv : P v) :
    R hs (fun _ => True) (textOver c t span v) (textOver c' t' span v) := by
  unfold Exec.textOver
  split
  · refine h.bind (h.object span hv) fun o ho => ?_
    refine h.read (fun m m' hseen => by simp only [hseen.heap]) (fun m m' hseen => by simp only [hseen.heap])
      fun m => ?_
    split
    · have hcall := p.call (.owned o) strName [] span ho.2 ho.2 (List.forall_mem_nil _)
      exact h.holding ho.2 (h.bind hcall fun w hw => (p.more h _).text span w hw)
    · exact h.display hv
  · exact h.display hv

theorem printRest (span : Span) {last : Value} (hlast : P last) {args : List Node}
    (hargs : ∀ a ∈ args, D a) :
    R hs P (printRest e t span last args) (printRest e' t' span last args) := by
  induction args generalizing last with
  | nil => exact h.bind (h.write "\n") fun _ _ => h.pure hlast
  | cons a rest ih =>
    obtain ⟨ha, hrest⟩ := List.forall_mem_cons.1 hargs
    refine h.bind (h.write " ") fun _ _ => h.bind (h.holding hlast ((p.more h _).node a ha)) fun v hv => ?_
    refine h.bind (h.holding hv ((p.more h v).text span v hv)) fun s _ => ?_
    exact h.bind (h.write s) fun _ _ => ih hv hrest

theorem print (span : Span) {args : List Node} (hargs : ∀ a ∈ args, D a) :
    R hs P (print e t span args) (print e' t' span args) := by
  cases args with
  | nil => exact h.bind (h.write "\n") fun _ _ => h.pure (h.plain nofun nofun)
  | cons a rest =>
    obtain ⟨ha, hrest⟩ := List.forall_mem_cons.1 hargs
    refine h.bind (p.node a ha) fun v hv => h.bind (h.holding hv ((p.more h v).text span v hv)) fun s _ => ?_
    exact h.bind (h.write s) fun _ _ => p.printRest h span hv hrest

/-! ### Operators -/

/-- Operands are as values should be, and held while something is done with them. -/
theorem operands {α : Type} {Q : α → Prop} {left right : Node} (hleft : D left) (hright : D right)
    {act act' : Value → Value → Exec α}
    (ha : ∀ a b, P a → P b → R (b :: a :: hs) Q (act a b) (act' a b)) :
    R hs Q (operands e left right act) (operands e' left right act') := by
  refine h.bind (p.node left hleft) fun a hla => h.holding hla ?_
  exact h.bind ((p.more h a).node right hright) fun b hrb => h.holding hrb (ha a b hla hrb)

theorem arithmetic (op : ArithOp) {left right : Value} (hleft : left ∈ hs) (hl : P left)
    (hr : P right) (span : Span) :
    R hs P (arithmetic c op left right span) (arithmetic c' op left right span) := by
  unfold Exec.arithmetic
  split
  · split
    · exact h.pure (h.plain nofun nofun)
    · rename_i fault hf
      rcases ArithOp.fault_of_onInts hf with rfl | rfl
      · exact h.raise span trivial
      · exact h.raise span trivial
  · exact h.pure (h.plain nofun nofun)
  · refine h.bind (h.object span hl) ?_
    rintro o ⟨rfl, ho⟩
    exact p.callHeld h hleft addName span hl ho (List.forall_mem_singleton.2 hr)
  · exact h.bind (h.typeName hl) fun _ _ => h.bind (h.typeName hr) fun _ _ => h.raise span trivial

theorem delegate (span : Span) (method : String) (op : Comparator) {left : Handle} {right : Value}
    (hleft : .obj left ∈ hs) (hl : P (.obj left)) (hr : P right) :
    R hs (fun _ => True) (delegate c span method op left right)
      (delegate c' span method op left right) := by
  refine h.bind (h.object span hl) ?_
  rintro o ⟨rfl, ho⟩
  refine h.read (fun m m' hseen => by simp only [hseen.heap]) (fun m m' hseen => by simp only [hseen.heap])
    fun m => ?_
  refine h.read (fun m m' hseen => by simp only [hseen.heap]) (fun m m' hseen => by simp only [hseen.heap])
    fun m' => ?_
  split
  · refine h.bind (h.tell trivial) fun _ _ => ?_
    have hcall := p.callHeld h hleft method span hl ho (List.forall_mem_singleton.2 hr)
    exact h.bind hcall fun _ _ => h.pure trivial
  · exact h.raise span trivial

theorem equal (span : Span) {left right : Value} (hleft : left ∈ hs) (hl : P left) (hr : P right) :
    R hs (fun _ => True) (equal c span left right) (equal c' span left right) := by
  cases left with
  | obj a =>
    cases right with
    | obj b => exact p.delegate h span _ _ hleft hl hr
    | _ => exact h.mismatch span _ hl hr
  | cls c =>
    cases right with
    | cls d => exact h.raise span trivial
    | _ => exact h.mismatch span _ hl hr
  | _ =>
    cases right <;> first | exact h.pure trivial | exact h.mismatch span _ hl hr

theorem less (span : Span) {left right : Value} (hleft : left ∈ hs) (hl : P left) (hr : P right) :
    R hs (fun _ => True) (less c span left right) (less c' span left right) := by
  cases left with
  | obj a =>
    cases right with
    | obj b => exact p.delegate h span _ _ hleft hl hr
    | _ => exact h.mismatch span _ hl hr
  | cls c =>
    cases right with
    | cls d => exact h.raise span trivial
    | _ => exact h.mismatch span _ hl hr
  | none =>
    cases right with
    | none => exact h.raise span trivial
    | _ => exact h.mismatch span _ hl hr
  | _ =>
    cases right <;> first | exact h.pure trivial | exact h.mismatch span _ hl hr

theorem greater (span : Span) {left right : Value} (hleft : left ∈ hs) (hl : P left) (hr : P right) :
    R hs (fun _ => True) (greater c span left right) (greater c' span left right) := by
  refine h.bind (p.less h span hleft hl hr) fun b _ => ?_
  split
  · exact h.pure trivial
  · exact h.bind (p.equal h span hleft hl hr) fun _ _ => h.pure trivial

theorem compare (span : Span) (op : Comparator) {left right : Value} (hleft : left ∈ hs) (hl : P left)
    (hr : P right) :
    R hs (fun _ => True) (compare c span op left right) (compare c' span op left right) := by
  cases op with
  | eq => exact p.equal h span hleft hl hr
  | ne => exact h.bind (p.equal h span hleft hl hr) fun _ _ => h.pure trivial
  | lt => exact p.less h span hleft hl hr
  | gt => exact p.greater h span hleft hl hr
  | le => exact h.bind (p.greater h span hleft hl hr) fun _ _ => h.pure trivial
  | ge => exact h.bind (p.less h span hleft hl hr) fun _ _ => h.pure trivial

theorem logical (op : LogicOp) {left right : Node} (hleft : D left) (hright : D right) :
    R hs P (logical e op left right) (logical e' op left right) := by
  refine h.bind (p.node left hleft) fun a _ => ?_
  dsimp only
  split
  · exact h.pure (h.bool true)
  · exact h.pure (h.bool false)
  · exact h.bind (p.node right hright) fun b _ => h.pure (h.bool _)

/-! ### Nodes -/

theorem block {last : Value} (hlast : P last) {body : List Node} (hbody : ∀ n ∈ body, D n) :
    R hs P (block e last body) (block e' last body) := by
  induction body generalizing last with
  | nil => exact h.pure hlast
  | cons n rest ih =>
    obtain ⟨hn, hrest⟩ := List.forall_mem_cons.1 hbody
    exact h.bind (h.holding hlast ((p.more h last).node n hn)) fun v hv => ih hv hrest

theorem assignField (path : List String) {field : String} {value : Node} (hvalue : D value)
    (hset : ∀ o v, P (.obj (.owned o)) → P v →
      R hs (fun _ : PUnit => True) (modify fun m => { m with heap := m.heap.setField o field v })
        (modify fun m => { m with heap := m.heap.setField o field v }))
    (span : Span) : R hs P (assignField e path field value span) (assignField e' path field value span) := by
  refine h.bind (h.readPath path span) fun target htarget => ?_
  split
  · refine h.bind (h.object span htarget) fun o ho => ?_
    refine h.bind (h.holding ho.2 ((p.more h _).node value hvalue)) fun v hv => ?_
    exact h.bind (hset o v ho.2 hv) fun _ _ => h.pure hv
  · exact h.bind (h.typeName htarget) fun _ _ => h.raise span trivial

/-- A step of execution is as the rules say if what it is made of is, and so are a class that is bound, the
binding of the node's name, the making of an object and the setting of a field. -/
theorem execOver_of_heap {node : Node} (hparts : ∀ n ∈ node.parts, D n)
    (hret : ∀ s v, node = .ret s v → ∀ w, P w → T w s) (hdef : ∀ s d, node = .classDef s d → P (.cls d.id))
    (hname : ∀ x v, node.bound? = some x → P v →
      R hs (fun _ : PUnit => True) (modify fun m => { m with scope := m.scope.set x v })
        (modify fun m => { m with scope := m.scope.set x v }))
    (hbody : ∀ s b, node = .methodBody s b → R hs P (e b) (e' b) → R hs P (returned (e b)) (returned (e' b)))
    (hnew : ∀ s cls args, node = .new s cls args →
      R hs P (Exec.instantiate c e cls args s) (Exec.instantiate c' e' cls args s))
    (hset : ∀ s path f v, node = .setField s path f v →
      R hs P (Exec.assignField e path f v s) (Exec.assignField e' path f v s)) :
    R hs P (execOver c e t node) (execOver c' e' t' node) := by
  cases node with
  | literal s v => exact h.pure (h.literal v)
  | assign s x v =>
    have hv := List.forall_mem_singleton.1 hparts
    exact h.bind (p.node v hv) fun w hw => h.bind (hname x w rfl hw) fun _ _ => h.pure hw
  | lookup s path => exact h.readPath path s
  | print s args => exact p.print h s hparts
  | call s object method args =>
    obtain ⟨hobject, hargs⟩ := List.forall_mem_cons.1 hparts
    exact p.callOn h hobject method hargs s
  | stringify s arg =>
    refine h.bind (p.node arg (List.forall_mem_singleton.1 hparts)) fun v hv => ?_
    exact h.bind (h.holding hv ((p.more h v).text s v hv)) fun _ _ => h.pure (h.plain nofun nofun)
  | arith s op l r =>
    obtain ⟨hl, hr⟩ := List.forall_mem_cons.1 hparts
    refine p.operands h hl (List.forall_mem_singleton.1 hr) fun a b ha hb => ?_
    have hmem : a ∈ b :: a :: hs := List.mem_cons_of_mem b List.mem_cons_self
    exact ((p.more h a).more h b).arithmetic h op hmem ha hb s
  | block s body =>
    have hnone : P .none := h.plain nofun nofun
    exact p.block h hnone hparts
  | ret s v =>
    exact h.bind (p.node v (List.forall_mem_singleton.1 hparts)) fun w hw => h.ret hw (hret s v rfl w hw)
  | classDef s d =>
    refine h.bind (h.tell trivial) fun _ _ => h.bind (hname _ _ rfl (hdef s d rfl)) fun _ _ => ?_
    exact h.pure (h.plain nofun nofun)
  | setField s path field v => exact hset s path field v rfl
  | ifElse s cond yes no =>
    obtain ⟨hcond, hbranches⟩ := List.forall_mem_cons.1 hparts
    obtain ⟨hyes, hno⟩ := List.forall_mem_cons.1 hbranches
    refine h.bind (p.node cond hcond) fun w hw => h.holding hw ?_
    split
    · exact h.more (p.node yes hyes) w
    · cases no with
      | none => exact h.pure (h.plain nofun nofun)
      | some n => exact h.more (p.node n (List.forall_mem_singleton.1 hno)) w
  | logic s op l r =>
    obtain ⟨hl, hr⟩ := List.forall_mem_cons.1 hparts
    exact p.logical h op hl (List.forall_mem_singleton.1 hr)
  | not s arg => exact h.bind (p.node arg (List.forall_mem_singleton.1 hparts)) fun v _ => h.pure (h.bool _)
  | compare s op l r =>
    obtain ⟨hl, hr⟩ := List.forall_mem_cons.1 hparts
    refine p.operands h hl (List.forall_mem_singleton.1 hr) fun a b ha hb => ?_
    have hmem : a ∈ b :: a :: hs := List.mem_cons_of_mem b List.mem_cons_self
    exact h.bind (((p.more h a).more h b).compare h s op hmem ha hb) fun _ _ => h.pure (h.bool _)
  | new s cls args => exact hnew s cls args rfl
  | methodBody s body => exact hbody s body rfl (p.node body (List.forall_mem_singleton.1 hparts))

omit h in
/-- A step of execution is as a logic says if what it is made of is. -/
theorem execOver (h : Logic P T R) {node : Node} (hparts : ∀ n ∈ node.parts, D n)
    (hret : ∀ s v, node = .ret s v → ∀ w, P w → T w s)
    (hbody : ∀ s b, node = .methodBody s b → R hs P (e b) (e' b) → R hs P (returned (e b)) (returned (e' b))) :
    R hs P (execOver c e t node) (execOver c' e' t' node) := by
  refine p.execOver_of_heap h.toRules hparts hret (fun _ d _ => h.cls d.id) (fun x _ _ hv => h.setName x hv) hbody
      ?_ ?_
  · rintro s cls args rfl
    exact p.instantiate h.toRules hparts (h.create cls args.length) s
  · rintro s path f v rfl
    exact p.assignField h.toRules path (List.forall_mem_singleton.1 hparts) (fun _ _ => h.setField f) s

end Pieces

end

end Exec

end ClassScript

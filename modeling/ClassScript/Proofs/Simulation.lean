import ClassScript.Proofs.Calls
import Mathlib.Data.List.Forall2

/-!
# Runs side by side

Two actions are alike if they take machines that `M` relates to such machines again, and have the same end
but for the place of an error; `A` says which errors may come up, and at which two places.  There is a rule
for each construct.  A relation of machines is a simulation if everything that an action does to a machine
keeps it, and what an action asks of a machine has one answer on both sides.  Main statement: steps are
alike if what they are made of is (`Alike.execOver`).
-/

namespace ClassScript

/-- Nodes that are the same but for their places, with parts as `D` says. -/
inductive Node.Twin (D : Node → Node → Prop) : Node → Node → Prop
  | literal {s s' : Span} (v : Literal) : Twin D (.literal s v) (.literal s' v)
  | assign {s s' : Span} (x : String) {v v' : Node} (value : D v v') : Twin D (.assign s x v) (.assign s' x v')
  | lookup {s s' : Span} (path : List String) : Twin D (.lookup s path) (.lookup s' path)
  | print {s s' : Span} {args args' : List Node} (parts : args.Forall₂ D args') :
      Twin D (.print s args) (.print s' args')
  | call {s s' : Span} {object object' : Node} (method : String) {args args' : List Node}
      (receiver : D object object') (parts : args.Forall₂ D args') :
      Twin D (.call s object method args) (.call s' object' method args')
  | stringify {s s' : Span} {arg arg' : Node} (value : D arg arg') :
      Twin D (.stringify s arg) (.stringify s' arg')
  | arith {s s' : Span} (op : ArithOp) {l l' r r' : Node} (left : D l l') (right : D r r') :
      Twin D (.arith s op l r) (.arith s' op l' r')
  | block {s s' : Span} {body body' : List Node} (parts : body.Forall₂ D body') :
      Twin D (.block s body) (.block s' body')
  | ret {s s' : Span} {v v' : Node} (value : D v v') : Twin D (.ret s v) (.ret s' v')
  | classDef {s s' : Span} {d d' : ClassDecl} (id : d.id = d'.id) (parent : d.parent = d'.parent)
      (methods : d.methods.length = d'.methods.length) : Twin D (.classDef s d) (.classDef s' d')
  | setField {s s' : Span} (path : List String) (field : String) {v v' : Node} (value : D v v') :
      Twin D (.setField s path field v) (.setField s' path field v')
  | ifElse {s s' : Span} {cond cond' yes yes' : Node} {no no' : Option Node} (test : D cond cond')
      (holds : D yes yes') (fails : Option.Rel D no no') :
      Twin D (.ifElse s cond yes no) (.ifElse s' cond' yes' no')
  | logic {s s' : Span} (op : LogicOp) {l l' r r' : Node} (left : D l l') (right : D r r') :
      Twin D (.logic s op l r) (.logic s' op l' r')
  | not {s s' : Span} {arg arg' : Node} (value : D arg arg') : Twin D (.not s arg) (.not s' arg')
  | compare {s s' : Span} (op : Comparator) {l l' r r' : Node} (left : D l l') (right : D r r') :
      Twin D (.compare s op l r) (.compare s' op l' r')
  | new {s s' : Span} (cls : ClassId) {args args' : List Node} (parts : args.Forall₂ D args') :
      Twin D (.new s cls args) (.new s' cls args')
  | methodBody {s s' : Span} {body body' : Node} (value : D body body') :
      Twin D (.methodBody s body) (.methodBody s' body')

/-- A node at another place, with each of its parts changed. -/
def Node.mapParts (span : Span) (f : Node → Node) : Node → Node
  | .literal _ v => .literal span v
  | .assign _ x v => .assign span x (f v)
  | .lookup _ path => .lookup span path
  | .print _ args => .print span (args.map f)
  | .call _ object method args => .call span (f object) method (args.map f)
  | .stringify _ arg => .stringify span (f arg)
  | .arith _ op l r => .arith span op (f l) (f r)
  | .block _ body => .block span (body.map f)
  | .ret _ v => .ret span (f v)
  | .classDef _ d => .classDef span ⟨d.id, d.parent, d.methods.map fun m => ⟨m.name, m.params, f m.body⟩⟩
  | .setField _ path field v => .setField span path field (f v)
  | .ifElse _ cond yes no => .ifElse span (f cond) (f yes) (no.map f)
  | .logic _ op l r => .logic span op (f l) (f r)
  | .not _ arg => .not span (f arg)
  | .compare _ op l r => .compare span op (f l) (f r)
  | .new _ cls args => .new span cls (args.map f)
  | .methodBody _ body => .methodBody span (f body)

theorem Node.mapParts_id (node : Node) : node.mapParts node.span id = node := by
  cases node <;> simp [mapParts, span]

namespace Node.Twin

variable {D : Node → Node → Prop} {node : Node}

/-- Nodes are twins if they differ only in their places and in parts as `D` says. -/
theorem mapParts {f : Node → Node} (span : Span) (h : ∀ c ∈ node.parts, D c (f c)) :
    node.Twin D (node.mapParts span f) := by
  have hparts : node.parts.Forall₂ D (node.parts.map f) := List.forall₂_map_right_iff.2 (List.forall₂_same.2 h)
  cases node with
  | literal s v => exact .literal v
  | lookup s path => exact .lookup path
  | print s args => exact .print hparts
  | block s body => exact .block hparts
  | new s cls args => exact .new cls hparts
  | classDef s d => exact .classDef rfl rfl (List.length_map _).symm
  | assign s x v =>
    obtain - | ⟨hv, -⟩ := hparts
    exact .assign x hv
  | setField s path field v =>
    obtain - | ⟨hv, -⟩ := hparts
    exact .setField path field hv
  | ret s v =>
    obtain - | ⟨hv, -⟩ := hparts
    exact .ret hv
  | stringify s arg =>
    obtain - | ⟨harg, -⟩ := hparts
    exact .stringify harg
  | not s arg =>
    obtain - | ⟨harg, -⟩ := hparts
    exact .not harg
  | methodBody s body =>
    obtain - | ⟨hbody, -⟩ := hparts
    exact .methodBody hbody
  | call s object method args =>
    obtain - | ⟨hobject, hargs⟩ := hparts
    exact .call method hobject hargs
  | arith s op l r =>
    obtain - | ⟨hl, - | ⟨hr, -⟩⟩ := hparts
    exact .arith op hl hr
  | logic s op l r =>
    obtain - | ⟨hl, - | ⟨hr, -⟩⟩ := hparts
    exact .logic op hl hr
  | compare s op l r =>
    obtain - | ⟨hl, - | ⟨hr, -⟩⟩ := hparts
    exact .compare op hl hr
  | ifElse s cond yes no =>
    obtain - | ⟨hcond, - | ⟨hyes, hrest⟩⟩ := hparts
    cases no with
    | none => exact .ifElse hcond hyes .none
    | some no =>
      obtain - | ⟨hno, -⟩ := hrest
      exact .ifElse hcond hyes (.some hno)

/-- A node is its own twin. -/
theorem refl (h : ∀ c ∈ node.parts, D c c) : node.Twin D node := by
  have htwin := mapParts (f := id) node.span h
  rwa [node.mapParts_id] at htwin

end Node.Twin

/-- What can go wrong at a node itself. -/
def Node.Raises : Node → RuntimeFault → Prop
  | .lookup _ _, .nameError _ => True
  | .setField _ _ _ _, .nameError _ => True
  | .setField _ _ _ _, .typeError (.noObject _ _ _) => True
  | .call _ _ _ _, .methodNotFound _ _ _ => True
  | .call _ _ _ _, .typeError (.noReceiver _ _) => True
  | .call _ _ _ _, .recursionLimit _ => True
  | .arith _ op _ _, .methodNotFound _ _ _ => op = .add
  | .arith _ op _ _, .typeError (.unsupported op' _ _) => op' = op
  | .arith _ op _ _, .divisionByZero => op = .div
  | .arith _ op _ _, .overflow op' => op' = op
  | .arith _ op _ _, .recursionLimit _ => op = .add
  | .compare _ _ _ _, .typeError (.notComparable _ _ _) => True
  | .compare _ _ _ _, .comparisonError _ => True
  | .compare _ _ _ _, .recursionLimit _ => True
  | .print _ _, .recursionLimit _ => True
  | .stringify _ _, .recursionLimit _ => True
  | .new _ _ _, .recursionLimit _ => True
  | .ret _ _, .returnOutsideMethod => True
  | _, _ => False

/-- Machines of which actions learn the same. -/
structure Machine.Agree (m m' : Machine) : Prop where
  scope : m.scope = m'.scope
  depth : m.depth = m'.depth
  sink : m.sink = m'.sink
  objects : m.heap.objects = m'.heap.objects
  live : m.live = m'.live
  /-- Methods take the same parameters. -/
  params : ∀ c name,
    (m.heap.getMethod? c name).map MethodOf.params = (m'.heap.getMethod? c name).map MethodOf.params

namespace Machine.Agree

variable {m m' n n' : Machine} (h : m.Agree m')
include h

theorem resolve (a : Handle) : m.resolve a = m'.resolve a := by
  rw [Machine.resolve, Machine.resolve, h.live]

theorem classOf (o : ObjId) : m.heap.classOf o = m'.heap.classOf o := by
  rw [Heap.classOf, Heap.classOf, h.objects]

theorem fresh : m.heap.fresh = m'.heap.fresh := congrArg Array.size h.objects

theorem field? (o : ObjId) (name : String) : m.heap.field? o name = m'.heap.field? o name := by
  rw [Heap.field?, Heap.field?, Heap.fields, Heap.fields, h.objects]

theorem typeName (v : Value) : m.typeName v = m'.typeName v := by
  unfold Machine.typeName Heap.typeName
  rw [h.live, funext h.classOf]

/-- The heap and what is alive may be asked for one after the other. -/
theorem display (h' : n.Agree n') (v : Value) : m.heap.display n.live v = m'.heap.display n'.live v := by
  unfold Heap.display
  rw [h'.live, funext h.classOf]

theorem follow (v : Value) (seen xs : List String) : m.follow v seen xs = m'.follow v seen xs := by
  induction xs generalizing v seen with
  | nil => rfl
  | cons x xs ih =>
    cases v with
    | obj a =>
      simp only [Machine.follow, h.resolve, h.field?]
      split
      · exact ih _ _
      · rfl
    | _ => rfl

theorem read (path : List String) : m.read path = m'.read path := by
  cases path with
  | nil => rfl
  | cons x xs =>
    simp only [Machine.read, Machine.owning, h.scope, h.live, h.follow]

/-- Of two calls either both come to methods, with the same parameters, or neither does. -/
theorem target? (o : ObjId) (name : String) (args : List Value) :
    (m.target? o name args).map MethodOf.params = (m'.target? o name args).map MethodOf.params := by
  have hp := h.params (m'.heap.classOf o) name
  rw [Machine.target?, Machine.target?, Heap.findMethod?, Heap.findMethod?, h.classOf]
  cases hg : m.heap.getMethod? (m'.heap.classOf o) name with
  | none =>
    rw [hg, Option.map_none, eq_comm, Option.map_eq_none_iff] at hp
    rw [hp]
  | some method =>
    rw [hg, Option.map_some, eq_comm, Option.map_eq_some_iff] at hp
    obtain ⟨method', hg', hparams⟩ := hp
    rw [hg', Option.filter_some, Option.filter_some, MethodOf.arity, MethodOf.arity, hparams]
    split
    · exact congrArg some hparams.symm
    · rfl

theorem hasMethod (o : ObjId) (name : String) (arity : Nat) :
    m.heap.hasMethod o name arity = m'.heap.hasMethod o name arity := by
  have ht := h.target? o name (List.replicate arity .none)
  rw [Machine.target?, Machine.target?, List.length_replicate] at ht
  rw [Heap.hasMethod, Heap.hasMethod, ← Option.isSome_map, ht, Option.isSome_map]

end Machine.Agree

/-- A relation of machines of which actions learn the same that everything keeps that is done to machines. -/
structure Simulation (M : Machine → Machine → Prop) : Prop where
  agree : ∀ {m m' : Machine}, M m m' → m.Agree m'
  hold : ∀ {m m' : Machine} (v : Value), M m m' →
    M { m with held := v :: m.held } { m' with held := v :: m'.held }
  unhold : ∀ {m m' n n' : Machine}, M m m' → M n n' → M { n with held := m.held } { n' with held := m'.held }
  enter : ∀ {m m' : Machine} (o : ObjId) (params : List String) (args : List Value), M m m' →
    M { m with scope := .frame o params args, callers := m.scope :: m.callers, depth := m.depth + 1 }
      { m' with scope := .frame o params args, callers := m'.scope :: m'.callers, depth := m'.depth + 1 }
  leave : ∀ {m m' n n' : Machine}, M m m' → M n n' →
    M { n with scope := m.scope, callers := m.callers, depth := n.depth - 1 }
      { n' with scope := m'.scope, callers := m'.callers, depth := n'.depth - 1 }
  told : ∀ {m m' : Machine} (e : Event), M m m' → M (m.told e) (m'.told e)
  write : ∀ {m m' : Machine} (text : String), M m m' →
    M { m with sink := m.sink.write text } { m' with sink := m'.sink.write text }
  create : ∀ {m m' : Machine} (cls : ClassId), M m m' →
    M { m with heap := m.heap.allocate cls } { m' with heap := m'.heap.allocate cls }
  setName : ∀ {m m' : Machine} (x : String) (v : Value), M m m' →
    M { m with scope := m.scope.set x v } { m' with scope := m'.scope.set x v }
  setField : ∀ {m m' : Machine} (o : ObjId) (f : String) (v : Value), M m m' →
    M { m with heap := m.heap.setField o f v } { m' with heap := m'.heap.setField o f v }

/-- Signals that are the same but for their places, where the error and the places are as `A` says. -/
inductive Signal.Alike (A : RuntimeFault → Span → Span → Prop) : Signal → Signal → Prop
  | returning (v : Value) (s s' : Span) : Alike A (.returning v s) (.returning v s')
  | raised {fault : RuntimeFault} {s s' : Span} (h : A fault s s') :
      Alike A (.error (.raised fault s)) (.error (.raised fault s'))
  | output (text : String) : Alike A (.error (.output text)) (.error (.output text))
  | exhausted : Alike A .exhausted .exhausted

namespace Exec

variable {α β : Type}

/-- Ends with the same result, or with such signals. -/
inductive EndsAlike (A : RuntimeFault → Span → Span → Prop) : Except Signal α → Except Signal α → Prop
  | ok (x : α) : EndsAlike A (.ok x) (.ok x)
  | error {s s' : Signal} (h : s.Alike A s') : EndsAlike A (.error s) (.error s')

/-- Actions that take machines related by `M` to such machines, and with ends that are alike. -/
def Alike (M : Machine → Machine → Prop) (A : RuntimeFault → Span → Span → Prop) (a b : Exec α) : Prop :=
  ∀ m m', M m m' → M (a m).2 (b m').2 ∧ EndsAlike A (a m).1 (b m').1

variable {M : Machine → Machine → Prop} {A : RuntimeFault → Span → Span → Prop}

namespace Alike

/-- Actions that leave the machine as it is. -/
theorem still {a b : Exec α} {r r' : Except Signal α} (ha : ∀ m, a m = (r, m)) (hb : ∀ m, b m = (r', m))
    (hr : EndsAlike A r r') : Alike M A a b := by
  intro m m' hm
  rw [ha, hb]
  exact ⟨hm, hr⟩

theorem pure (x : α) : Alike M A (pure x : Exec α) (pure x) := .still (fun _ => rfl) (fun _ => rfl) (.ok x)

theorem throw {s s' : Signal} (h : s.Alike A s') :
    Alike M A (MonadExcept.throw s : Exec α) (MonadExcept.throw s') :=
  .still (fun _ => rfl) (fun _ => rfl) (.error h)

theorem raise {fault : RuntimeFault} {s s' : Span} (h : A fault s s') :
    Alike M A (raise fault s : Exec α) (raise fault s') :=
  .throw (.raised h)

theorem bind {a b : Exec α} {f g : α → Exec β} (h : Alike M A a b) (hf : ∀ x, Alike M A (f x) (g x)) :
    Alike M A (a >>= f) (b >>= g) := by
  intro m m' hm
  obtain ⟨hn, hend⟩ := h m m' hm
  rw [bind_apply, bind_apply]
  rcases ha : a m with ⟨r, n⟩
  rcases hb : b m' with ⟨r', n'⟩
  rw [ha, hb] at hn hend
  cases hend with
  | ok x => exact hf x n n' hn
  | error hs => exact ⟨hn, .error hs⟩

/-- Actions may rely on the machines that they look at. -/
theorem read {f g : Machine → Exec α} (h : ∀ m m', M m m' → Alike M A (f m) (g m')) :
    Alike M A (get >>= f) (get >>= g) :=
  fun m m' hm => h m m' hm m m' hm

/-- Actions that are started with other machines, and whose ends are seen from there. -/
theorem of_apply {a b a' b' : Exec α} (f : Machine → Machine) (back : Machine → Machine → Machine)
    (ha : ∀ m, a' m = ((a (f m)).1, back m (a (f m)).2)) (hb : ∀ m, b' m = ((b (f m)).1, back m (b (f m)).2))
    (h : Alike M A a b) (hf : ∀ m m', M m m' → M (f m) (f m'))
    (hback : ∀ m m' n n', M m m' → M n n' → M (back m n) (back m' n')) : Alike M A a' b' := by
  intro m m' hm
  obtain ⟨hn, hend⟩ := h _ _ (hf m m' hm)
  rw [ha, hb]
  exact ⟨hback m m' _ _ hm hn, hend⟩

/-- A `return` that is caught is no error. -/
theorem returned {a b : Exec Value} (h : Alike M A a b) : Alike M A (returned a) (returned b) := by
  intro m m' hm
  obtain ⟨hn, hend⟩ := h m m' hm
  rw [returned_apply, returned_apply]
  refine ⟨hn, ?_⟩
  rcases ha : a m with ⟨r, n⟩
  rcases hb : b m' with ⟨r', n'⟩
  rw [ha, hb] at hend
  cases hend with
  | ok v => exact .ok _
  | error hs =>
    cases hs with
    | returning v s s' => exact .ok v
    | raised hA => exact .error (.raised hA)
    | output text => exact .error (.output text)
    | exhausted => exact .error .exhausted

/-- A `return` that is left over of a body is an error, unless there is none. -/
theorem closed {a b : Exec Value} (h : Alike M A a b)
    (hstray : Returnless a ∨ ∀ s s', A .returnOutsideMethod s s') : Alike M A (closed a) (closed b) := by
  intro m m' hm
  obtain ⟨hn, hend⟩ := h m m' hm
  rw [closed_apply, closed_apply]
  refine ⟨hn, ?_⟩
  rcases ha : a m with ⟨r, n⟩
  rcases hb : b m' with ⟨r', n'⟩
  rw [ha, hb] at hend
  cases hend with
  | ok v => exact .ok v
  | error hs =>
    cases hs with
    | returning v s s' =>
      rcases hstray with hnone | hall
      · exact absurd (congrArg Prod.fst ha) (hnone m v s)
      · exact .error (.raised (hall s s'))
    | raised hA => exact .error (.raised hA)
    | output text => exact .error (.output text)
    | exhausted => exact .error .exhausted

section

variable (h : Simulation M) {s s' : Span}
include h

theorem readPath {path : List String} (hname : ∀ name, A (.nameError name) s s') :
    Alike M A (readPath path s) (readPath path s') := by
  refine .read fun m m' hm => ?_
  rw [(h.agree hm).read]
  split
  · exact .pure _
  · exact .raise (hname _)

theorem typeName (v : Value) : Alike M A (typeName v) (typeName v) := by
  refine .read fun m m' hm => ?_
  rw [(h.agree hm).typeName]
  exact .pure _

theorem object {a : Handle} (hgone : A (.typeError .released) s s') :
    Alike M A (object a s) (object a s') := by
  refine .read fun m m' hm => ?_
  rw [(h.agree hm).resolve]
  split
  · exact .pure _
  · exact .raise hgone

theorem display (v : Value) :
    Alike M A (get >>= fun m => get >>= fun n => Pure.pure (m.heap.display n.live v))
      (get >>= fun m => get >>= fun n => Pure.pure (m.heap.display n.live v)) := by
  refine .read fun m m' hm => .read fun n n' hn => ?_
  rw [(h.agree hm).display (h.agree hn)]
  exact .pure _

theorem holding {a b : Exec α} (v : Value) (hab : Alike M A a b) : Alike M A (holding v a) (holding v b) :=
  .of_apply (fun m => { m with held := v :: m.held }) (fun m n => { n with held := m.held })
    (fun _ => rfl) (fun _ => rfl) hab (fun _ _ => h.hold v) fun _ _ _ _ => h.unhold

theorem traced {a b : Exec α} (e : Event) (hab : Alike M A a b) : Alike M A (traced e a) (traced e b) :=
  .of_apply (·.told e) (fun _ n => n.told .leave) (fun _ => rfl) (fun _ => rfl) hab (fun _ _ => h.told e)
    fun _ _ _ _ _ => h.told .leave

theorem inFrame {a b : Exec α} (o : ObjId) (params : List String) (args : List Value) (hab : Alike M A a b) :
    Alike M A (inFrame (.frame o params args) a) (inFrame (.frame o params args) b) :=
  .of_apply
    (fun m => { m with
      scope := .frame o params args, callers := m.scope :: m.callers, depth := m.depth + 1 })
    (fun m n => { n with scope := m.scope, callers := m.callers, depth := n.depth - 1 })
    (fun _ => rfl) (fun _ => rfl) hab (fun _ _ => h.enter o params args) fun _ _ _ _ => h.leave

theorem tell (e : Event) : Alike M A (tell e) (tell e) := fun _ _ hm => ⟨h.told e hm, .ok ()⟩

theorem write (text : String) : Alike M A (write text) (write text) := by
  intro m m' hm
  rw [write_apply, write_apply, (h.agree hm).sink]
  refine ⟨(h.agree hm).sink ▸ h.write text hm, ?_⟩
  dsimp only
  split
  · exact .ok ()
  · exact .error (.output _)

theorem create (cls : ClassId) (arity : Nat) : Alike M A (create cls arity) (create cls arity) := by
  intro m m' hm
  refine ⟨h.told _ (h.create cls hm), ?_⟩
  show EndsAlike A (.ok m.heap.fresh) (.ok m'.heap.fresh)
  rw [(h.agree hm).fresh]
  exact .ok _

theorem setName (x : String) (v : Value) :
    Alike M A (modify fun m => { m with scope := m.scope.set x v } : Exec PUnit)
      (modify fun m => { m with scope := m.scope.set x v }) :=
  fun _ _ hm => ⟨h.setName x v hm, .ok ()⟩

theorem setField (o : ObjId) (f : String) (v : Value) :
    Alike M A (modify fun m => { m with heap := m.heap.setField o f v } : Exec PUnit)
      (modify fun m => { m with heap := m.heap.setField o f v }) :=
  fun _ _ hm => ⟨h.setField o f v hm, .ok ()⟩

theorem checkDepth {limit : Option Nat} (hlimit : ∀ k, A (.recursionLimit k) s s') :
    Alike M A (checkDepth limit s) (checkDepth limit s') := by
  cases limit with
  | none => exact .pure _
  | some n =>
    refine .read fun m m' hm => ?_
    rw [(h.agree hm).depth]
    split
    · exact .raise (hlimit n)
    · exact .pure _

/-- The errors of a call: its method is not there, it is too deep, or an error comes up in its body. -/
theorem callMethod {limit : Option Nat} {e e' : Node → Exec Value} {o : ObjId} {name : String}
    {args : List Value} {m m' : Machine} (hm : M m m')
    (hfound : m.target? o name args = none →
      A (.methodNotFound (m.heap.classOf o).name name args.length) s s')
    (hlimit : ∀ k, A (.recursionLimit k) s s')
    (hbody : ∀ method ∈ m.target? o name args, ∀ method' ∈ m'.target? o name args,
      Alike M A (e method.body) (e' method'.body) ∧
        (Returnless (e method.body) ∨ ∀ s s', A .returnOutsideMethod s s')) :
    M (callMethod limit e o name args s m).2 (callMethod limit e' o name args s' m').2 ∧
      EndsAlike A (callMethod limit e o name args s m).1 (callMethod limit e' o name args s' m').1 := by
  -- both calls find a method or neither does, and the two methods may differ in their bodies only
  have htarget := (h.agree hm).target? o name args
  rw [callMethod_apply, callMethod_apply, ← (h.agree hm).classOf]
  refine traced h _ ?_ m m' hm
  cases ht : m.target? o name args with
  | none =>
    rw [ht, Option.map_none, eq_comm, Option.map_eq_none_iff] at htarget
    rw [htarget]
    exact .raise (hfound ht)
  | some method =>
    rw [ht, Option.map_some, eq_comm, Option.map_eq_some_iff] at htarget
    obtain ⟨method', ht', hparams⟩ := htarget
    rw [ht']
    obtain ⟨hrun, hstray⟩ := hbody method ht method' ht'
    dsimp only
    rw [hparams]
    exact (checkDepth h hlimit).bind fun _ => .inFrame h o method.params args (hrun.closed hstray)

end

/-! ### Steps -/

section

variable (h : Simulation M) {c c' : Call} {e e' : Node → Exec Value} {t t' : Span → Value → Exec String}
  {s s' : Span}
include h

theorem evalArgs {args args' : List Node} (hargs : args.Forall₂ (fun a a' => Alike M A (e a) (e' a')) args') :
    Alike M A (evalArgs e args) (evalArgs e' args') := by
  induction hargs with
  | nil => exact .pure []
  | cons ha _ ih => exact ha.bind fun v => (holding h v ih).bind fun vs => .pure (v :: vs)

theorem setUp {args args' : List Node} (hargs : args.Forall₂ (fun a a' => Alike M A (e a) (e' a')) args')
    (hcall : ∀ o vs, Alike M A (c o initName vs s) (c' o initName vs s')) (o : ObjId) :
    Alike M A (setUp c e o args s) (setUp c' e' o args' s') := by
  refine .read fun m m' hm => ?_
  rw [(h.agree hm).hasMethod, hargs.length_eq]
  split
  · exact .holding h _ ((evalArgs h hargs).bind fun vs => (hcall o vs).bind fun _ => .pure ())
  · exact .pure ()

/-- A class that is always alive is always found. -/
theorem instantiate {cls : ClassId}
    (hnew : (∀ m m', M m m' → m.live (.cls cls) = true) ∨ A (.nameError cls.name) s s')
    {args args' : List Node} (hargs : args.Forall₂ (fun a a' => Alike M A (e a) (e' a')) args')
    (hcall : ∀ o vs, Alike M A (c o initName vs s) (c' o initName vs s')) :
    Alike M A (instantiate c e cls args s) (instantiate c' e' cls args' s') := by
  refine .read fun m m' hm => ?_
  rw [← (h.agree hm).live, ← hargs.length_eq]
  split
  · exact (create h cls args.length).bind fun o => (setUp h hargs hcall o).bind fun _ => .pure _
  · rename_i hdead
    rcases hnew with hlive | hname
    · exact absurd (hlive m m' hm) hdead
    · exact .raise hname

theorem operands {left left' right right' : Node} (hleft : Alike M A (e left) (e' left'))
    (hright : Alike M A (e right) (e' right')) {act act' : Value → Value → Exec α}
    (hact : ∀ a b, Alike M A (act a b) (act' a b)) :
    Alike M A (operands e left right act) (operands e' left' right' act') :=
  hleft.bind fun a => .holding h a <| hright.bind fun b => .holding h b (hact a b)

theorem block {body body' : List Node} (hbody : body.Forall₂ (fun n n' => Alike M A (e n) (e' n')) body')
    (last : Value) : Alike M A (block e last body) (block e' last body') := by
  induction hbody generalizing last with
  | nil => exact .pure last
  | cons hn _ ih => exact (holding h last hn).bind fun v => ih v

theorem printRest {args args' : List Node} (hargs : args.Forall₂ (fun a a' => Alike M A (e a) (e' a')) args')
    (htext : ∀ v, Alike M A (t s v) (t' s' v)) (last : Value) :
    Alike M A (printRest e t s last args) (printRest e' t' s' last args') := by
  induction hargs generalizing last with
  | nil => exact (write h "\n").bind fun _ => .pure last
  | cons ha _ ih =>
    exact (write h " ").bind fun _ => (holding h last ha).bind fun v =>
      (holding h v (htext v)).bind fun text => (write h text).bind fun _ => ih v

theorem print {args args' : List Node} (hargs : args.Forall₂ (fun a a' => Alike M A (e a) (e' a')) args')
    (htext : ∀ v, Alike M A (t s v) (t' s' v)) : Alike M A (print e t s args) (print e' t' s' args') := by
  cases hargs with
  | nil => exact (write h "\n").bind fun _ => .pure Value.none
  | cons ha hrest =>
    exact ha.bind fun v => (holding h v (htext v)).bind fun text =>
      (write h text).bind fun _ => printRest h hrest htext v

section

variable (hgone : A (.typeError .released) s s')
include hgone

theorem callOn {object object' : Node} {method : String} {args args' : List Node}
    (hobject : Alike M A (e object) (e' object'))
    (hargs : args.Forall₂ (fun a a' => Alike M A (e a) (e' a')) args')
    (hcall : ∀ o vs, Alike M A (c o method vs s) (c' o method vs s'))
    (htype : ∀ type, A (.typeError (.noReceiver method type)) s s') :
    Alike M A (callOn c e object method args s) (callOn c' e' object' method args' s') := by
  refine hobject.bind fun v => ?_
  split
  · exact (Alike.object h hgone).bind fun o => .holding h _ ((evalArgs h hargs).bind fun vs => hcall o vs)
  · exact (Alike.typeName h _).bind fun type => .raise (htype type)

theorem textOver (hcall : ∀ o, Alike M A (c o strName [] s) (c' o strName [] s'))
    (htext : ∀ v, Alike M A (t s v) (t' s' v)) (v : Value) :
    Alike M A (textOver c t s v) (textOver c' t' s' v) := by
  unfold Exec.textOver
  split
  · refine (Alike.object h hgone).bind fun o => .read fun m m' hm => ?_
    rw [(h.agree hm).hasMethod]
    split
    · exact .holding h _ ((hcall o).bind htext)
    · exact .display h _
  · exact .display h _

theorem assignField {path : List String} {field : String} {value value' : Node}
    (hvalue : Alike M A (e value) (e' value')) (hname : ∀ name, A (.nameError name) s s')
    (htype : ∀ type, A (.typeError (.noObject field path type)) s s') :
    Alike M A (assignField e path field value s) (assignField e' path field value' s') := by
  refine (Alike.readPath h hname).bind fun target => ?_
  split
  · exact (Alike.object h hgone).bind fun o => (holding h _ hvalue).bind fun v =>
      (setField h o field v).bind fun _ => .pure v
  · exact (Alike.typeName h _).bind fun type => .raise (htype type)

theorem arithmetic {op : ArithOp} (hzero : op = .div → A .divisionByZero s s') (hover : A (.overflow op) s s')
    (htype : ∀ l r, A (.typeError (.unsupported op l r)) s s')
    (hcall : op = .add → ∀ o vs, Alike M A (c o addName vs s) (c' o addName vs s')) (left right : Value) :
    Alike M A (arithmetic c op left right s) (arithmetic c' op left right s') := by
  unfold Exec.arithmetic
  split
  · split
    · exact .pure _
    · rename_i fault hf
      refine .raise ?_
      unfold ArithOp.onInts at hf
      split at hf
      · rename_i hdiv
        cases hf
        exact hzero hdiv.1
      · split at hf
        · cases hf
        · cases hf
          exact hover
  · exact .pure _
  · exact (Alike.object h hgone).bind fun o => hcall rfl o _
  · exact (Alike.typeName h _).bind fun l => (Alike.typeName h _).bind fun r => .raise (htype l r)

/-- The errors of a comparison are those of its operands and of calls. -/
theorem compare (htype : ∀ op l r, A (.typeError (.notComparable op l r)) s s')
    (hcompare : ∀ why, A (.comparisonError why) s s')
    (hcall : ∀ o name vs, Alike M A (c o name vs s) (c' o name vs s')) (op : Comparator) (left right : Value) :
    Alike M A (compare c s op left right) (compare c' s' op left right) := by
  -- every comparator comes down to `equal` and `less`, and these to a method of two objects or an error
  have hmismatch (op left right) : Alike M A (mismatch s op left right) (mismatch s' op left right) :=
    (Alike.typeName h _).bind fun l => (Alike.typeName h _).bind fun r => .raise (htype op l r)
  have hdelegate (method op a right) :
      Alike M A (delegate c s method op a right) (delegate c' s' method op a right) := by
    refine (Alike.object h hgone).bind fun o => .read fun m m' hm => .read fun n n' hn => ?_
    rw [(h.agree hm).classOf, (h.agree hn).hasMethod]
    split
    · exact (tell h _).bind fun _ => (hcall o method _).bind fun _ => .pure _
    · exact .raise (hcompare _)
  have hequal (left right) : Alike M A (equal c s left right) (equal c' s' left right) := by
    cases left with
    | obj a =>
      cases right with
      | obj b => exact hdelegate _ _ a _
      | _ => exact hmismatch _ _ _
    | cls c =>
      cases right with
      | cls d => exact .raise (hcompare _)
      | _ => exact hmismatch _ _ _
    | _ => cases right <;> first | exact .pure _ | exact hmismatch _ _ _
  have hless (left right) : Alike M A (less c s left right) (less c' s' left right) := by
    cases left with
    | obj a =>
      cases right with
      | obj b => exact hdelegate _ _ a _
      | _ => exact hmismatch _ _ _
    | cls c =>
      cases right with
      | cls d => exact .raise (hcompare _)
      | _ => exact hmismatch _ _ _
    | none =>
      cases right with
      | none => exact .raise (hcompare _)
      | _ => exact hmismatch _ _ _
    | _ => cases right <;> first | exact .pure _ | exact hmismatch _ _ _
  have hgreater : Alike M A (greater c s left right) (greater c' s' left right) := by
    refine (hless left right).bind fun b => ?_
    split
    · exact .pure _
    · exact (hequal left right).bind fun _ => .pure _
  cases op with
  | eq => exact hequal left right
  | ne => exact (hequal left right).bind fun _ => .pure _
  | lt => exact hless left right
  | gt => exact hgreater
  | le => exact hgreater.bind fun _ => .pure _
  | ge => exact (hless left right).bind fun _ => .pure _

end

omit h in
theorem logical {op : LogicOp} {left left' right right' : Node} (hleft : Alike M A (e left) (e' left'))
    (hright : Alike M A (e right) (e' right')) :
    Alike M A (logical e op left right) (logical e' op left' right') := by
  refine hleft.bind fun a => ?_
  dsimp only
  split
  · exact .pure _
  · exact .pure _
  · exact hright.bind fun b => .pure _

/-- Steps are alike if parts, calls and texts are.  The errors are those of the node itself and of what it
is made of. -/
theorem execOver {node node' : Node} (htwin : node.Twin (fun n n' => Alike M A (e n) (e' n')) node')
    (hself : ∀ fault, node.Raises fault → A fault node.span node'.span)
    (hgone : A (.typeError .released) node.span node'.span)
    (hnew : ∀ s cls args, node = .new s cls args →
      (∀ m m', M m m' → m.live (.cls cls) = true) ∨ A (.nameError cls.name) node.span node'.span)
    (hcall : (∀ k, node.Raises (.recursionLimit k)) →
      ∀ o name vs, Alike M A (c o name vs node.span) (c' o name vs node'.span))
    (htext : (∀ k, node.Raises (.recursionLimit k)) →
      ∀ v, Alike M A (t node.span v) (t' node'.span v)) :
    Alike M A (execOver c e t node) (execOver c' e' t' node') := by
  cases htwin with
  | literal v => exact .pure _
  | assign x hvalue => exact hvalue.bind fun w => (setName h x w).bind fun _ => .pure w
  | lookup path => exact .readPath h fun _ => hself _ trivial
  | print hargs => exact .print h hargs (htext fun _ => trivial)
  | call method hobject hargs =>
    refine .callOn h hgone hobject hargs (fun o vs => ?_) fun _ => hself _ trivial
    exact hcall (fun _ => trivial) o method vs
  | stringify hvalue =>
    exact hvalue.bind fun v => (holding h v (htext (fun _ => trivial) v)).bind fun _ => .pure _
  | arith op hleft hright =>
    refine .operands h hleft hright fun a b => ?_
    refine .arithmetic h hgone (fun hdiv => hself _ hdiv) (hself _ rfl) (fun _ _ => hself _ rfl) ?_ a b
    exact fun hadd o vs => hcall (fun _ => hadd) o addName vs
  | block hbody => exact .block h hbody Value.none
  | ret hvalue => exact hvalue.bind fun w => .throw (.returning w _ _)
  | @classDef s s' d d' hid hparent hmethods =>
    -- a definition only reads the header of its class, so nothing is asked of the bodies
    show Alike M A (do
        Exec.tell (.classDefined d.id.name (d.parent.map ClassId.name) d.methods.length)
        modify fun m => { m with scope := m.scope.set d.id.name (.cls d.id) }
        return Value.none) (do
        Exec.tell (.classDefined d'.id.name (d'.parent.map ClassId.name) d'.methods.length)
        modify fun m => { m with scope := m.scope.set d'.id.name (.cls d'.id) }
        return Value.none)
    rw [hid, hparent, hmethods]
    exact (tell h _).bind fun _ => (setName h _ _).bind fun _ => .pure Value.none
  | setField path field hvalue =>
    exact .assignField h hgone hvalue (fun _ => hself _ trivial) fun _ => hself _ trivial
  | ifElse htest hholds hfails =>
    refine htest.bind fun w => .holding h w ?_
    split
    · exact hholds
    · cases hfails with
      | none => exact .pure _
      | some hno => exact hno
  | logic op hleft hright => exact .logical hleft hright
  | not hvalue => exact hvalue.bind fun v => .pure _
  | compare op hleft hright =>
    refine .operands h hleft hright fun a b => ?_
    refine (Alike.compare h hgone (fun _ _ _ => hself _ trivial) (fun _ => hself _ trivial) ?_ op a b).bind
      fun _ => .pure _
    exact hcall fun _ => trivial
  | @new s s' cls args args' hargs =>
    refine .instantiate h (hnew s cls args rfl) hargs fun o vs => ?_
    exact hcall (fun _ => trivial) o initName vs
  | methodBody hbody => exact hbody.returned

end

end Alike

end Exec

end ClassScript

import ClassScript.Run.Step

/-!
# Congruences of actions

A relation between actions is a congruence if it holds of every primitive action and itself, and
every way of putting actions together keeps it.  What becomes of calls is left to each relation: the
limit to their depth may differ on the two sides.  Main statement: steps of execution are related if
what they are made of is (`Congruence.execOver`).
-/

namespace ClassScript.Exec

/-- A relation that every primitive action bears to itself and that composed actions inherit. An
error at the limit of calls is no primitive action. -/
structure Congruence (R : (α : Type) → Exec α → Exec α → Prop) : Prop where
  pure : ∀ {α : Type} (x : α), R α (pure x) (pure x)
  raise : ∀ {α : Type} {fault : RuntimeFault} (span : Span), (∀ n, fault ≠ .recursionLimit n) →
    R α (raise fault span) (raise fault span)
  ret : ∀ v span, R Value (throw (.returning v span)) (throw (.returning v span))
  bind : ∀ {α β : Type} {a b : Exec α} {f g : α → Exec β}, R α a b → (∀ x, R β (f x) (g x)) →
    R β (a >>= f) (b >>= g)
  read : R Machine get get
  holding : ∀ {α : Type} {a b : Exec α} (v : Value), R α a b → R α (holding v a) (holding v b)
  traced : ∀ {α : Type} {a b : Exec α} (e : Event), R α a b → R α (traced e a) (traced e b)
  returned : ∀ {a b : Exec Value}, R Value a b → R Value (returned a) (returned b)
  write : ∀ text, R Unit (write text) (write text)
  tell : ∀ e, R Unit (tell e) (tell e)
  create : ∀ cls arity, R ObjId (create cls arity) (create cls arity)
  setName : ∀ x v, R PUnit (modify fun m => { m with scope := m.scope.set x v })
    (modify fun m => { m with scope := m.scope.set x v })
  setField : ∀ o f v, R PUnit (modify fun m => { m with heap := m.heap.setField o f v })
    (modify fun m => { m with heap := m.heap.setField o f v })

/-- What two steps are made of is related: calls, nodes and texts of values. -/
structure Related (R : (α : Type) → Exec α → Exec α → Prop) (c c' : Call) (e e' : Node → Exec Value)
    (t t' : Span → Value → Exec String) : Prop where
  call : ∀ o name args span, R Value (c o name args span) (c' o name args span)
  node : ∀ n, R Value (e n) (e' n)
  text : ∀ span v, R String (t span v) (t' span v)

namespace Congruence

variable {R : (α : Type) → Exec α → Exec α → Prop} (h : Congruence R)
include h

theorem object (a : Handle) (span : Span) : R ObjId (object a span) (object a span) := by
  refine h.bind h.read fun m => ?_
  split
  · exact h.pure _
  · exact h.raise span (by simp)

theorem typeName (v : Value) : R String (typeName v) (typeName v) :=
  h.bind h.read fun m => h.pure (m.typeName v)

theorem readPath (path : List String) (span : Span) :
    R Value (readPath path span) (readPath path span) := by
  refine h.bind h.read fun m => ?_
  split
  · exact h.pure _
  · exact h.raise span (by simp)

/-- Calls are related if the bodies of methods with the check of their depth are. -/
theorem callMethod {limit limit' : Option Nat} {e e' : Node → Exec Value}
    (hbody : ∀ frame span body,
      R Value (checkDepth limit span >>= fun _ => inFrame frame (closed (e body)))
        (checkDepth limit' span >>= fun _ => inFrame frame (closed (e' body))))
    (o : ObjId) (name : String) (args : List Value) (span : Span) :
    R Value (callMethod limit e o name args span) (callMethod limit' e' o name args span) := by
  refine h.bind h.read fun m => h.traced _ (h.bind h.read fun m' => ?_)
  split
  · exact h.raise span (by simp)
  · exact hbody _ span _

variable {c c' : Call} {e e' : Node → Exec Value} {t t' : Span → Value → Exec String}
  (hs : Related R c c' e e' t t')
include hs

/-! ### Calls and texts -/

theorem evalArgs (args : List Node) : R (List Value) (evalArgs e args) (evalArgs e' args) := by
  induction args with
  | nil => exact h.pure []
  | cons a rest ih =>
    exact h.bind (hs.node a) fun v => h.bind (h.holding v ih) fun vs => h.pure (v :: vs)

theorem callOn (object : Node) (method : String) (args : List Node) (span : Span) :
    R Value (callOn c e object method args span) (callOn c' e' object method args span) := by
  refine h.bind (hs.node object) fun v => ?_
  split
  · exact h.bind (h.object _ span) fun o => h.holding _ <|
      h.bind (h.evalArgs hs args) fun vs => hs.call o method vs span
  · exact h.bind (h.typeName _) fun ty => h.raise span (by simp)

theorem setUp (o : ObjId) (args : List Node) (span : Span) :
    R Unit (setUp c e o args span) (setUp c' e' o args span) := by
  refine h.bind h.read fun m => ?_
  split
  · refine h.holding _ (h.bind (h.evalArgs hs args) fun vs => ?_)
    exact h.bind (hs.call o initName vs span) fun _ => h.pure ()
  · exact h.pure ()

theorem instantiate (cls : ClassId) (args : List Node) (span : Span) :
    R Value (instantiate c e cls args span) (instantiate c' e' cls args span) := by
  refine h.bind h.read fun m => ?_
  split
  · exact h.bind (h.create cls args.length) fun o =>
      h.bind (h.setUp hs o args span) fun _ => h.pure _
  · exact h.raise span (by simp)

theorem textOver (span : Span) (v : Value) :
    R String (textOver c t span v) (textOver c' t' span v) := by
  unfold Exec.textOver
  split
  · refine h.bind (h.object _ span) fun o => h.bind h.read fun m => ?_
    split
    · exact h.holding _ (h.bind (hs.call o strName [] span) fun w => hs.text span w)
    · exact h.bind h.read fun m => h.bind h.read fun m' => h.pure _
  · exact h.bind h.read fun m => h.bind h.read fun m' => h.pure _

omit hs in
/-- The texts of values are related if calls are, and the texts of what these give. -/
theorem shown (hc : ∀ o name args span, R Value (c o name args span) (c' o name args span))
    (ht : ∀ span v, R String (t span v) (t' span v)) (span : Span) (v : Value) :
    R String (Exec.textOver c t span v) (Exec.textOver c' t' span v) := by
  -- no node is carried out for a text
  let idle : Node → Exec Value := fun _ => Pure.pure .none
  have hs : Related R c c' idle idle t t' := ⟨hc, fun _ => h.pure _, ht⟩
  exact h.textOver hs span v

theorem printRest (span : Span) (last : Value) (args : List Node) :
    R Value (printRest e t span last args) (printRest e' t' span last args) := by
  induction args generalizing last with
  | nil => exact h.bind (h.write "\n") fun _ => h.pure last
  | cons a rest ih =>
    exact h.bind (h.write " ") fun _ => h.bind (h.holding last (hs.node a)) fun v =>
      h.bind (h.holding v (hs.text span v)) fun s => h.bind (h.write s) fun _ => ih v

theorem print (span : Span) (args : List Node) : R Value (print e t span args) (print e' t' span args) := by
  cases args with
  | nil => exact h.bind (h.write "\n") fun _ => h.pure Value.none
  | cons a rest =>
    exact h.bind (hs.node a) fun v => h.bind (h.holding v (hs.text span v)) fun s =>
      h.bind (h.write s) fun _ => h.printRest hs span v rest

/-! ### Operators -/

theorem operands {α : Type} (left right : Node) {act act' : Value → Value → Exec α}
    (ha : ∀ a b, R α (act a b) (act' a b)) :
    R α (operands e left right act) (operands e' left right act') :=
  h.bind (hs.node left) fun a => h.holding a <| h.bind (hs.node right) fun b => h.holding b (ha a b)

theorem arithmetic (op : ArithOp) (left right : Value) (span : Span) :
    R Value (arithmetic c op left right span) (arithmetic c' op left right span) := by
  unfold Exec.arithmetic
  split
  · split
    · exact h.pure _
    · rename_i fault hf
      rcases ArithOp.fault_of_onInts hf with rfl | rfl
      · exact h.raise span (by simp)
      · exact h.raise span (by simp)
  · exact h.pure _
  · exact h.bind (h.object _ span) fun o => hs.call o addName _ span
  · exact h.bind (h.typeName _) fun a => h.bind (h.typeName _) fun b => h.raise span (by simp)

omit hs in
theorem mismatch (span : Span) (op : Comparator) (left right : Value) :
    R Bool (mismatch span op left right) (mismatch span op left right) :=
  h.bind (h.typeName left) fun a => h.bind (h.typeName right) fun b => h.raise span (by simp)

theorem delegate (span : Span) (method : String) (op : Comparator) (left : Handle) (right : Value) :
    R Bool (delegate c span method op left right)
      (delegate c' span method op left right) := by
  refine h.bind (h.object left span) fun o => h.bind h.read fun m => h.bind h.read fun m' => ?_
  split
  · exact h.bind (h.tell _) fun _ => h.bind (hs.call o method [right] span) fun v => h.pure _
  · exact h.raise span (by simp)

theorem equal (span : Span) (left right : Value) :
    R Bool (equal c span left right) (equal c' span left right) := by
  cases left with
  | obj a =>
    cases right with
    | obj b => exact h.delegate hs span _ _ a (.obj b)
    | _ => exact h.mismatch span _ _ _
  | cls c =>
    cases right with
    | cls d => exact h.raise span (by simp)
    | _ => exact h.mismatch span _ _ _
  | _ =>
    cases right <;> first | exact h.pure _ | exact h.mismatch span _ _ _

theorem less (span : Span) (left right : Value) :
    R Bool (less c span left right) (less c' span left right) := by
  cases left with
  | obj a =>
    cases right with
    | obj b => exact h.delegate hs span _ _ a (.obj b)
    | _ => exact h.mismatch span _ _ _
  | cls c =>
    cases right with
    | cls d => exact h.raise span (by simp)
    | _ => exact h.mismatch span _ _ _
  | none =>
    cases right with
    | none => exact h.raise span (by simp)
    | _ => exact h.mismatch span _ _ _
  | _ =>
    cases right <;> first | exact h.pure _ | exact h.mismatch span _ _ _

theorem greater (span : Span) (left right : Value) :
    R Bool (greater c span left right) (greater c' span left right) := by
  refine h.bind (h.less hs span left right) fun b => ?_
  split
  · exact h.pure _
  · exact h.bind (h.equal hs span left right) fun _ => h.pure _

theorem compare (span : Span) (op : Comparator) (left right : Value) :
    R Bool (compare c span op left right) (compare c' span op left right) := by
  cases op with
  | eq => exact h.equal hs span left right
  | ne => exact h.bind (h.equal hs span left right) fun _ => h.pure _
  | lt => exact h.less hs span left right
  | gt => exact h.greater hs span left right
  | le => exact h.bind (h.greater hs span left right) fun _ => h.pure _
  | ge => exact h.bind (h.less hs span left right) fun _ => h.pure _

theorem logical (op : LogicOp) (left right : Node) :
    R Value (logical e op left right) (logical e' op left right) := by
  refine h.bind (hs.node left) fun a => ?_
  dsimp only
  split
  · exact h.pure _
  · exact h.pure _
  · exact h.bind (hs.node right) fun b => h.pure _

/-! ### Nodes -/

theorem block (last : Value) (body : List Node) : R Value (block e last body) (block e' last body) := by
  induction body generalizing last with
  | nil => exact h.pure last
  | cons n rest ih => exact h.bind (h.holding last (hs.node n)) fun v => ih v

theorem assignField (path : List String) (field : String) (value : Node) (span : Span) :
    R Value (assignField e path field value span) (assignField e' path field value span) := by
  refine h.bind (h.readPath path span) fun target => ?_
  split
  · exact h.bind (h.object _ span) fun o => h.bind (h.holding _ (hs.node value)) fun v =>
      h.bind (h.setField o field v) fun _ => h.pure v
  · exact h.bind (h.typeName _) fun ty => h.raise span (by simp)

/-- A step of execution is related to another if what it is made of is. -/
theorem execOver (node : Node) : R Value (execOver c e t node) (execOver c' e' t' node) := by
  cases node with
  | literal s v => exact h.pure _
  | assign s x v => exact h.bind (hs.node v) fun w => h.bind (h.setName x w) fun _ => h.pure w
  | lookup s path => exact h.readPath path s
  | print s args => exact h.print hs s args
  | call s object method args => exact h.callOn hs object method args s
  | stringify s arg =>
    exact h.bind (hs.node arg) fun v => h.bind (h.holding v (hs.text s v)) fun _ => h.pure _
  | arith s op l r => exact h.operands hs l r fun a b => h.arithmetic hs op a b s
  | block s body => exact h.block hs Value.none body
  | ret s v => exact h.bind (hs.node v) fun w => h.ret w s
  | classDef s d =>
    exact h.bind (h.tell _) fun _ => h.bind (h.setName d.id.name (.cls d.id)) fun _ => h.pure Value.none
  | setField s path field v => exact h.assignField hs path field v s
  | ifElse s cond yes no =>
    refine h.bind (hs.node cond) fun c => h.holding c ?_
    split
    · exact hs.node yes
    · cases no with
      | none => exact h.pure Value.none
      | some n => exact hs.node n
  | logic s op l r => exact h.logical hs op l r
  | not s arg => exact h.bind (hs.node arg) fun v => h.pure _
  | compare s op l r =>
    exact h.operands hs l r fun a b => h.bind (h.compare hs s op a b) fun _ => h.pure _
  | new s cls args => exact h.instantiate hs cls args s
  | methodBody s body => exact h.returned (hs.node body)

end Congruence

/-! ### Actions that agree unless a signal comes up -/

variable {α β : Type}

/-- One action after another: the second starts where the first has ended with a result. -/
theorem bind_apply (a : Exec α) (f : α → Exec β) (m : Machine) :
    (a >>= f) m =
      match a m with
      | (.ok x, m') => f x m'
      | (.error s, m') => (.error s, m') := by
  change (ExceptT.bind a f) m = _
  simp only [ExceptT.bind, ExceptT.mk, bind, StateT.bind]
  cases h : a m with
  | mk r m' => cases r <;> rfl

/-- What comes of two actions one after another comes of the second. -/
theorem exists_of_bind_eq_ok {a : Exec α} {f : α → Exec β} {m m' : Machine} {y : β}
    (h : (a >>= f) m = (.ok y, m')) : ∃ x m₁, a m = (.ok x, m₁) ∧ f x m₁ = (.ok y, m') := by
  rw [bind_apply] at h
  rcases hr : a m with ⟨s | x, m₁⟩
  · rw [hr] at h
    cases h
  · rw [hr] at h
    exact ⟨x, m₁, rfl, h⟩

/-- A signal that is caught: what catches it starts where it came up. -/
theorem tryCatch_apply (a : Exec α) (f : Signal → Exec α) (m : Machine) :
    (tryCatch a f : Exec α) m =
      match a m with
      | (.ok x, m') => (.ok x, m')
      | (.error s, m') => f s m' := by
  change (ExceptT.tryCatch a f) m = _
  simp only [ExceptT.tryCatch, ExceptT.mk, bind, StateT.bind]
  cases h : a m with
  | mk r m' => cases r <;> rfl

theorem write_apply (text : String) (m : Machine) :
    write text m = (if m.sink.fits text then .ok () else .error (.error (.output Sink.fullText)),
      { m with sink := m.sink.write text }) := by
  cases h : m.sink.fits text with
  | true =>
    show (if m.sink.fits text then (pure () : Exec Unit) else throw _) _ = _
    rw [h]
    rfl
  | false =>
    show (if m.sink.fits text then (pure () : Exec Unit) else throw _) _ = _
    rw [h]
    rfl

theorem object_apply (a : Handle) (span : Span) (m : Machine) :
    object a span m = match m.resolve a with
      | some o => (.ok o, m)
      | none => (.error (.error (.raised (.typeError .released) span)), m) := by
  show (match m.resolve a with
    | some o => (pure o : Exec ObjId)
    | none => raise (.typeError .released) span) m = _
  cases m.resolve a <;> rfl

theorem readPath_apply (path : List String) (span : Span) (m : Machine) :
    readPath path span m = match m.read path with
      | .ok v => (.ok v, m)
      | .error name => (.error (.error (.raised (.nameError name) span)), m) := by
  show (match m.read path with
    | .ok v => (pure v : Exec Value)
    | .error name => raise (.nameError name) span) m = _
  cases m.read path <;> rfl

/-- The object of a handle is its own. -/
theorem id_of_object {a : Handle} {span : Span} {m : Machine} {o : ObjId}
    (h : (object a span m).1 = .ok o) : a.id = o := by
  rw [object_apply] at h
  cases hr : m.resolve a with
  | none =>
    rw [hr] at h
    cases h
  | some p =>
    rw [hr] at h
    cases h
    rcases Machine.resolve_eq_some hr with rfl | ⟨rfl, -⟩
    · rfl
    · rfl

/-- Wherever `a` does not end with one of the signals in `bad`, `b` does the same. -/
def Unless (bad : Signal → Prop) (a b : Exec α) : Prop :=
  ∀ m, (∀ s, (a m).1 = .error s → ¬ bad s) → b m = a m

namespace Unless

variable {bad : Signal → Prop}

@[refl] theorem refl (a : Exec α) : Unless bad a a := fun _ _ => rfl

theorem throw (s : Signal) (h : bad s) (b : Exec α) : Unless bad (throw s) b :=
  fun _ hm => absurd h (hm s rfl)

theorem bind {a b : Exec α} {f g : α → Exec β} (ha : Unless bad a b)
    (hf : ∀ x, Unless bad (f x) (g x)) : Unless bad (a >>= f) (b >>= g) := by
  intro m h
  rw [bind_apply] at h ⊢
  rw [bind_apply]
  have ham := ha m
  cases hr : a m with
  | mk r m' =>
    rw [hr] at h ham
    cases r with
    | ok x =>
      rw [ham fun s hs => by cases hs]
      exact hf x m' h
    | error s =>
      have hbad := h s rfl
      rw [ham fun s' hs => by cases hs; exact hbad]

theorem holding {a b : Exec α} (v : Value) (h : Unless bad a b) :
    Unless bad (holding v a) (holding v b) := by
  intro m hm
  simp only [Exec.holding] at hm ⊢
  rw [h _ hm]

theorem inFrame {a b : Exec α} (s : Scope) (h : Unless bad a b) :
    Unless bad (inFrame s a) (inFrame s b) := by
  intro m hm
  simp only [Exec.inFrame] at hm ⊢
  rw [h _ hm]

theorem traced {a b : Exec α} (e : Event) (h : Unless bad a b) :
    Unless bad (traced e a) (traced e b) := by
  intro m hm
  simp only [Exec.traced] at hm ⊢
  rw [h _ hm]

/-- What is caught is none of the signals in question. -/
theorem tryCatch {a b : Exec α} {f : Signal → Exec α} (h : Unless bad a b)
    (hf : ∀ s, bad s → f s = MonadExcept.throw s) :
    Unless bad (MonadExcept.tryCatch a f) (MonadExcept.tryCatch b f) := by
  intro m hm
  rw [tryCatch_apply] at hm ⊢
  rw [tryCatch_apply]
  have ham := h m
  cases hr : a m with
  | mk r m' =>
    rw [hr] at hm ham
    cases r with
    | ok x => rw [ham fun s hs => by cases hs]
    | error s =>
      rw [ham]
      rintro s' hs hbad
      cases hs
      dsimp only at hm
      rw [hf s hbad] at hm
      exact hm s rfl hbad

theorem closed {a b : Exec Value} (hbad : ∀ v span, ¬ bad (.returning v span))
    (h : Unless bad a b) : Unless bad (closed a) (closed b) := by
  refine .tryCatch h fun s hs => ?_
  cases s with
  | returning v span => exact absurd hs (hbad v span)
  | _ => rfl

/-- Agreement is a congruence if no `return` is among the signals. -/
theorem congruence (hbad : ∀ v span, ¬ bad (.returning v span)) :
    Congruence fun _ => Unless bad where
  pure x := .refl _
  raise span _ := .refl _
  ret v span := .refl _
  bind := .bind
  read := .refl _
  holding := .holding
  traced := .traced
  returned h := by
    refine .tryCatch (.bind h fun _ => .refl _) fun s hs => ?_
    cases s with
    | returning v span => exact absurd hs (hbad v span)
    | _ => rfl
  write text := .refl _
  tell e := .refl _
  create cls arity := .refl _
  setName x v := .refl _
  setField o f v := .refl _

/-- Calls agree unless a signal comes up if bodies of methods do. -/
theorem callMethod (hbad : ∀ v span, ¬ bad (.returning v span)) (limit : Option Nat)
    {e e' : Node → Exec Value} (he : ∀ n, Unless bad (e n) (e' n)) (o : ObjId) (name : String)
    (args : List Value) (span : Span) :
    Unless bad (callMethod limit e o name args span) (callMethod limit e' o name args span) :=
  (congruence hbad).callMethod (fun frame _ body =>
    .bind (.refl _) fun _ => .inFrame frame (.closed hbad (he body))) o name args span

end Unless

end ClassScript.Exec

import ClassScript.Proofs.Calls
import ClassScript.Proofs.Watch
import ClassScript.Run.Logic

/-!
# Invariants of machines

An invariant `I` of machines with a property `P` of the values in use is kept by a run if every primitive
action keeps it (`Invariant`).  `Obeys` says this of an action, and of a way to carry it out that is
watched; it is a logic of actions.  Main statements: a run keeps an invariant and ends with values and
errors as they should be (`Invariant.exec`), and what follows from the invariant holds at every turn of
the run (`Invariant.throughout`).
-/

namespace ClassScript

/-- The error that there was a `return` outside of all bodies of methods. -/
def RuntimeError.Stray (e : RuntimeError) : Prop := ∃ span, e = .raised .returnOutsideMethod span

theorem RuntimeFault.Ordinary.not_stray {fault : RuntimeFault} (h : fault.Ordinary) (span : Span) :
    ¬ (RuntimeError.raised fault span).Stray := by
  rintro ⟨span', ⟨⟩⟩
  exact h

/-- What every primitive action has to keep that leaves the heap as it is: `I` of machines, where `P` is a
property of values in use and `S` one of the errors that may come up. -/
structure BaseInvariant (I : Machine → Prop) (P : Value → Prop) (S : RuntimeError → Prop) : Prop where
  plain : ∀ {v : Value}, (∀ a, v ≠ .obj a) → (∀ c, v ≠ .cls c) → P v
  hold : ∀ {m : Machine} {v : Value}, I m → P v → I { m with held := v :: m.held }
  unhold : ∀ {m m' : Machine}, I m → I m' → I { m' with held := m.held }
  enter : ∀ {m : Machine} {o : ObjId} {args : List Value} (params : List String), I m →
    P (.obj (.owned o)) → (∀ v ∈ args, P v) →
      I { m with scope := .frame o params args, callers := m.scope :: m.callers, depth := m.depth + 1 }
  leave : ∀ {m m' : Machine}, I m → I m' →
    I { m' with scope := m.scope, callers := m.callers, depth := m'.depth - 1 }
  trace : ∀ {m : Machine} (t : Array Event), I m → I { m with trace := t }
  sink : ∀ {m : Machine} (s : Sink), I m → I { m with sink := s }
  setName : ∀ {m : Machine} (x : String) {v : Value}, I m → P v →
    I { m with scope := m.scope.set x v }
  resolve : ∀ {m : Machine} {a : Handle} {o : ObjId}, I m → P (.obj a) → m.resolve a = some o →
    P (.obj (.owned o))
  read : ∀ {m : Machine} {path : List String} {v : Value}, I m → m.read path = .ok v → P v
  error : ∀ {e : RuntimeError}, ¬ e.Stray → S e

/-- What every primitive action has to keep where nodes are carried out that are as `D` says. Objects are made
of live classes only. -/
structure Invariant (I : Machine → Prop) (P : Value → Prop) (S : RuntimeError → Prop)
    (D : Node → Prop := fun _ => True) : Prop extends BaseInvariant I P S where
  create : ∀ {m : Machine} (cls : ClassId), I m → m.live (.cls cls) = true →
    I { m with heap := m.heap.allocate cls } ∧ P (.obj (.owned m.heap.fresh))
  setField : ∀ {m : Machine} {o : ObjId} (f : String) {v : Value}, I m → P (.obj (.owned o)) → P v →
    I { m with heap := m.heap.setField o f v }
  cls : ∀ {span : Span} {d : ClassDecl}, D (.classDef span d) → P (.cls d.id)
  parts : ∀ {n c : Node}, D n → c ∈ n.parts → D c
  /-- A method that is found has a body where a `return` ends, or else strays may come up. -/
  body : ∀ {m : Machine} {c : ClassId} {name : String} {arity : Nat} {method : Method}, I m →
    m.heap.findMethod? c name arity = some method →
      D method.body ∧ (method.body.IsBody ∨ ∀ e : RuntimeError, e.Stray → S e)

/-- A signal with a value to return as `P` says, or an error as `S` says. -/
def Signal.Allowed (P : Value → Prop) (S : RuntimeError → Prop) : Signal → Prop
  | .returning v _ => P v
  | .error e => S e
  | .exhausted => True

namespace Exec

variable {I : Machine → Prop} {P : Value → Prop} {S : RuntimeError → Prop} {α β : Type}

/-- An end of an action with a result as `Q` says, or else with such a signal. -/
def Ends (P : Value → Prop) (S : RuntimeError → Prop) (Q : α → Prop) : Except Signal α → Prop
  | .ok x => Q x
  | .error s => s.Allowed P S

/-- `a` does what `b` does wherever `I` holds, and `b` keeps it. -/
def Obeys (I : Machine → Prop) (P : Value → Prop) (S : RuntimeError → Prop) (Q : α → Prop)
    (a b : Exec α) : Prop :=
  ∀ m, I m → a m = b m ∧ I (b m).2 ∧ Ends P S Q (b m).1

namespace Obeys

variable {Q Q' : α → Prop} {a b : Exec α}

theorem mono (h : Obeys I P S Q a b) (hQ : ∀ x, Q x → Q' x) : Obeys I P S Q' a b := by
  intro m hm
  obtain ⟨heq, hm', hend⟩ := h m hm
  refine ⟨heq, hm', ?_⟩
  rcases hr : (b m).1 with s | x
  · rw [hr] at hend
    exact hend
  · rw [hr] at hend
    exact hQ x hend

theorem right (h : Obeys I P S Q a b) : Obeys I P S Q b b := fun m hm => ⟨rfl, (h m hm).2⟩

/-- An action that keeps the machine as it is. -/
theorem still {r : Except Signal α} (h : ∀ m, a m = (r, m)) (hr : Ends P S Q r) :
    Obeys I P S Q a a := by
  intro m hm
  rw [h]
  exact ⟨rfl, hm, hr⟩

theorem bind {f g : α → Exec β} {R : β → Prop} (h : Obeys I P S Q a b)
    (hf : ∀ x, Q x → Obeys I P S R (f x) (g x)) : Obeys I P S R (a >>= f) (b >>= g) := by
  intro m hm
  obtain ⟨heq, hm', hend⟩ := h m hm
  rw [bind_apply, bind_apply, heq]
  rcases hr : b m with ⟨s | x, m'⟩
  · rw [hr] at hm' hend
    exact ⟨rfl, hm', hend⟩
  · rw [hr] at hm' hend
    exact hf x hend m' hm'

/-- An action may rely on the machine that it looks at. -/
theorem read {f g : Machine → Exec α} (h : ∀ m, I m → Obeys I P S Q (f m) (g m)) :
    Obeys I P S Q (get >>= f) (get >>= g) :=
  fun m hm => h m hm m hm

/-- An action that is started with another machine, and whose end is seen from there. -/
theorem of_apply (f : Machine → Machine) (back : Machine → Machine → Machine) {c d : Exec α}
    (hc : ∀ m, c m = ((a (f m)).1, back m (a (f m)).2))
    (hd : ∀ m, d m = ((b (f m)).1, back m (b (f m)).2)) (h : Obeys I P S Q a b)
    (hf : ∀ m, I m → I (f m)) (hback : ∀ m m', I m → I m' → I (back m m')) : Obeys I P S Q c d := by
  intro m hm
  obtain ⟨heq, hm', hend⟩ := h (f m) (hf m hm)
  rw [hc, hd, heq]
  exact ⟨rfl, hback m _ hm hm', hend⟩

theorem tryCatch {f : Signal → Exec α} (h : Obeys I P S Q a b)
    (hf : ∀ m s, I m → (b m).1 = .error s → Ends P S Q (.error s) → Obeys I P S Q (f s) (f s)) :
    Obeys I P S Q (MonadExcept.tryCatch a f) (MonadExcept.tryCatch b f) := by
  intro m hm
  obtain ⟨heq, hm', hend⟩ := h m hm
  have hcatch := hf m
  rw [tryCatch_apply, tryCatch_apply, heq]
  rcases hr : b m with ⟨s | x, m'⟩
  · rw [hr] at hm' hend hcatch
    exact hcatch s hm rfl hend m' hm'
  · rw [hr] at hm' hend
    exact ⟨rfl, hm', hend⟩

theorem returned {a b : Exec Value} (hnone : P .none) (h : Obeys I P S P a b) :
    Obeys I P S P (returned a) (returned b) := by
  refine tryCatch (h.bind fun _ _ => .still (fun _ => rfl) hnone) fun m s _ _ hend => ?_
  cases s with
  | returning v span => exact .still (fun _ => rfl) hend
  | error e => exact .still (fun _ => rfl) hend
  | exhausted => exact .still (fun _ => rfl) trivial

/-- A body is closed if it is one where a `return` ends, or else strays may come up. -/
theorem closed {a b : Exec Value} (h : Obeys I P S P a b)
    (hstray : Returnless b ∨ ∀ e : RuntimeError, e.Stray → S e) :
    Obeys I P S P (closed a) (closed b) := by
  refine tryCatch h fun m s _ hs hend => ?_
  cases s with
  | returning v span =>
    rcases hstray with hnone | hall
    · exact absurd hs (hnone m v span)
    · exact .still (fun _ => rfl) (hall _ ⟨span, rfl⟩)
  | error e => exact .still (fun _ => rfl) hend
  | exhausted => exact .still (fun _ => rfl) trivial

/-- A guard is passed that only asks for what follows from the invariant. -/
theorem guarded {before : Machine → Prop} {after : Except Signal α → Machine → Prop}
    (h : Obeys I P S Q a b) (hbefore : ∀ m, I m → before m)
    (hafter : ∀ r m, I m → Ends P S Q r → after r m) (stop : Signal) :
    Obeys I P S Q (guarded before after stop a) b := by
  intro m hm
  obtain ⟨heq, hm', hend⟩ := h m hm
  refine ⟨?_, hm', hend⟩
  have ha : after (a m).1 (a m).2 := by
    rw [heq]
    exact hafter _ _ hm' hend
  rw [guarded_of_holds (hbefore m hm) ha, heq]

end Obeys

end Exec

/-- What a watch asks for follows from an invariant. -/
structure Exec.Watch.Follows (w : Exec.Watch) (I : Machine → Prop) (P : Value → Prop)
    (S : RuntimeError → Prop) : Prop where
  before : ∀ n node m, I m → w.before n node m
  after : ∀ n node r m, I m → Exec.Ends P S P r → w.after n node r m
  calling : ∀ n o name args span m, I m → P (.obj (.owned o)) → (∀ v ∈ args, P v) →
    w.calling n o name args span m
  called : ∀ n o r m, I m → Exec.Ends P S P r → w.called n o r m
  showing : ∀ n v m, I m → P v → w.showing n v m

/-- There is nothing to ask for if nothing is watched. -/
theorem Exec.Watch.follows_trivial (I : Machine → Prop) (P : Value → Prop) (S : RuntimeError → Prop) :
    ({} : Watch).Follows I P S where
  before _ _ _ _ := trivial
  after _ _ _ _ _ _ := trivial
  calling _ _ _ _ _ _ _ _ _ := trivial
  called _ _ _ _ _ _ := trivial
  showing _ _ _ _ _ := trivial

namespace BaseInvariant

open Exec

variable {I : Machine → Prop} {P : Value → Prop} {S : RuntimeError → Prop} (h : BaseInvariant I P S)
include h

theorem holding {α : Type} {Q : α → Prop} {a b : Exec α} {v : Value} (hv : P v)
    (hab : Obeys I P S Q a b) : Obeys I P S Q (holding v a) (holding v b) :=
  .of_apply (fun m => { m with held := v :: m.held }) (fun m m' => { m' with held := m.held })
    (fun _ => rfl) (fun _ => rfl) hab (fun _ hm => h.hold hm hv) fun _ _ => h.unhold

theorem traced {α : Type} {Q : α → Prop} {a b : Exec α} (e : Event) (hab : Obeys I P S Q a b) :
    Obeys I P S Q (traced e a) (traced e b) :=
  .of_apply (fun m => { m with trace := m.trace.push e })
    (fun _ m' => { m' with trace := m'.trace.push .leave }) (fun _ => rfl) (fun _ => rfl) hab
    (fun _ => h.trace _) fun _ _ _ => h.trace _

theorem inFrame {α : Type} {Q : α → Prop} {a b : Exec α} {o : ObjId} {params : List String}
    {args : List Value} (ho : P (.obj (.owned o))) (hargs : ∀ v ∈ args, P v)
    (hab : Obeys I P S Q a b) :
    Obeys I P S Q (inFrame (.frame o params args) a) (inFrame (.frame o params args) b) :=
  .of_apply
    (fun m => { m with
      scope := .frame o params args, callers := m.scope :: m.callers, depth := m.depth + 1 })
    (fun m m' => { m' with scope := m.scope, callers := m.callers, depth := m'.depth - 1 })
    (fun _ => rfl) (fun _ => rfl) hab (fun _ hm => h.enter params hm ho hargs) fun _ _ => h.leave

/-- To keep an invariant is a judgement of actions that leave the scope and the heap as they are. -/
theorem rules : Rules P (fun _ _ => True) fun _ Q a b => Obeys I P S Q a b where
  plain := h.plain
  mono hab _ hQ := hab.mono hQ
  pure hx := .still (fun _ => rfl) hx
  raise span hf := .still (fun _ => rfl) (h.error (hf.not_stray span))
  ret hv _ := .still (fun _ => rfl) hv
  bind := .bind
  read _ _ hfg := .read fun m _ => hfg m
  holding := h.holding
  object {hs a} span ha := by
    refine .read fun m hm => ?_
    cases hr : m.resolve a with
    | none =>
      refine .still (fun _ => rfl) (h.error ?_)
      rintro ⟨span', ⟨⟩⟩
    | some o =>
      refine .still (fun _ => rfl) ⟨?_, h.resolve hm ha hr⟩
      rcases Machine.resolve_eq_some hr with rfl | ⟨rfl, -⟩
      · rfl
      · rfl
  readPath path span := by
    refine .read fun m hm => ?_
    cases hr : m.read path with
    | ok v => exact .still (fun _ => rfl) (h.read hm hr)
    | error name =>
      refine .still (fun _ => rfl) (h.error ?_)
      rintro ⟨span', ⟨⟩⟩
  write text := by
    intro m hm
    rw [write_apply]
    refine ⟨rfl, h.sink _ hm, ?_⟩
    dsimp only
    split
    · trivial
    · refine h.error ?_
      rintro ⟨span, ⟨⟩⟩
  tell _ := fun m hm => ⟨rfl, h.trace _ hm, trivial⟩

/-- To bind a name keeps an invariant. -/
theorem bindName (x : String) {v : Value} (hv : P v) :
    Obeys I P S (fun _ : PUnit => True) (modify fun m => { m with scope := m.scope.set x v })
      (modify fun m => { m with scope := m.scope.set x v }) :=
  fun _ hm => ⟨rfl, h.setName x hm hv, trivial⟩

theorem checkDepth (limit : Option Nat) (span : Span) :
    Obeys I P S (fun _ => True) (checkDepth limit span) (checkDepth limit span) := by
  cases limit with
  | none => exact .still (fun _ => rfl) trivial
  | some n =>
    refine .read fun m _ => ?_
    split
    · refine .still (fun _ => rfl) (h.error ?_)
      rintro ⟨span', ⟨⟩⟩
    · exact .still (fun _ => rfl) trivial

/-- A call keeps an invariant if the bodies of methods that are found do. -/
theorem callMethod {limit : Option Nat} {e e' : Node → Exec Value}
    (hbody : ∀ {m : Machine} {c : ClassId} {name : String} {arity : Nat} {method : Method}, I m →
      m.heap.findMethod? c name arity = some method → Obeys I P S P (e method.body) (e' method.body) ∧
        (Returnless (e' method.body) ∨ ∀ err : RuntimeError, err.Stray → S err))
    {o : ObjId} {args : List Value} (ho : P (.obj (.owned o))) (hargs : ∀ v ∈ args, P v) (name : String)
    (span : Span) :
    Obeys I P S P (callMethod limit e o name args span) (callMethod limit e' o name args span) := by
  refine .read fun m _ => h.traced _ (.read fun m' hm' => ?_)
  cases hf : m'.heap.findMethod? (m.heap.classOf o) name args.length with
  | none =>
    refine .still (fun _ => rfl) (h.error ?_)
    rintro ⟨span', ⟨⟩⟩
  | some method =>
    obtain ⟨hrun, hstray⟩ := hbody hm' hf
    exact .bind (h.checkDepth limit span) fun _ _ => h.inFrame ho hargs (hrun.closed hstray)

end BaseInvariant

namespace Invariant

open Exec

variable {I : Machine → Prop} {P : Value → Prop} {S : RuntimeError → Prop} {D : Node → Prop}
  (h : Invariant I P S D)
include h

/-- An object is made if its class is alive, and only then. -/
theorem instantiate {hs : List Value} {c c' : Call} {e e' : Node → Exec Value} {t t' : Span → Value → Exec String}
    (p : Pieces P D (fun _ Q a b => Obeys I P S Q a b) hs c c' e e' t t') (cls : ClassId)
    {args : List Node} (hargs : ∀ a ∈ args, D a) (span : Span) :
    Obeys I P S P (instantiate c e cls args span) (instantiate c' e' cls args span) := by
  intro m hm
  by_cases hlive : m.live (.cls cls) = true
  · have hcreate : Exec.create cls args.length m = (.ok m.heap.fresh,
        { m.told (.newInstance cls.name args.length) with heap := m.heap.allocate cls }) := rfl
    obtain ⟨hnew, ho⟩ := h.create cls hm hlive
    have hrest : Obeys I P S P
        (setUp c e m.heap.fresh args span >>= fun _ => pure (.obj (.owned m.heap.fresh)))
        (setUp c' e' m.heap.fresh args span >>= fun _ => pure (.obj (.owned m.heap.fresh))) :=
      .bind (p.setUp h.rules ho hargs span) fun _ _ => .still (fun _ => rfl) ho
    have hfound (c : Call) (e : Node → Exec Value) : Exec.instantiate c e cls args span m =
        (Exec.create cls args.length >>= fun o =>
          setUp c e o args span >>= fun _ => pure (.obj (.owned o))) m := by
      show (if m.live (.cls cls) = true then _ else _ : Exec Value) m = _
      rw [if_pos hlive]
    rw [hfound, hfound, bind_apply, bind_apply, hcreate]
    exact hrest _ (h.trace _ hnew)
  · have hlost (c : Call) (e : Node → Exec Value) :
        Exec.instantiate c e cls args span m = raise (.nameError cls.name) span m := by
      show (if m.live (.cls cls) = true then _ else _ : Exec Value) m = _
      rw [if_neg hlive]
    rw [hlost, hlost]
    refine ⟨rfl, hm, h.error ?_⟩
    rintro ⟨span', ⟨⟩⟩

/-- A run that is watched for what follows from an invariant keeps it. -/
theorem watched {w : Watch} (hw : w.Follows I P S) (limit : Option Nat) (stop : Signal) (n : Nat) :
    (∀ node, D node → Obeys I P S P (watch w stop limit n node) (exec limit n node)) ∧
      ∀ span v, P v →
        Obeys I P S (fun _ => True) (watchText w stop limit n span v) (text limit n span v) := by
  induction n with
  | zero => exact ⟨fun _ _ => .still (fun _ => rfl) trivial, fun _ _ _ => .still (fun _ => rfl) trivial⟩
  | succ n ih =>
    obtain ⟨hnode, htext⟩ := ih
    have hp : Pieces P D (fun _ Q a b => Obeys I P S Q a b) []
        (watchCall w stop limit n (watch w stop limit n)) (Exec.callMethod limit (exec limit n))
        (watch w stop limit n) (exec limit n) (watchText w stop limit n) (text limit n) := by
      refine ⟨fun a name args span _ ho hargs => ?_, hnode, htext⟩
      refine (h.callMethod (fun hm hf => ?_) ho hargs name span).guarded ?_ ?_ stop
      · obtain ⟨hD, hbody⟩ := h.body hm hf
        exact ⟨hnode _ hD, hbody.imp_left fun hn => returnless_of_isBody hn limit n⟩
      · exact fun m hm => hw.calling n a.id name args span m hm ho hargs
      · exact fun r m hm hend => hw.called n a.id r m hm hend
    constructor
    · intro node hD
      have hparts : ∀ c ∈ node.parts, D c := fun c hc => h.parts hD hc
      refine Obeys.guarded ?_ (hw.before (n + 1) node) (hw.after (n + 1) node) stop
      refine hp.execOver_of_heap h.rules hparts (fun _ _ _ _ _ => trivial) ?_ (fun x _ _ hv => h.bindName x hv) ?_ ?_ ?_
      · rintro span d rfl
        exact h.cls hD
      · exact fun _ _ _ => .returned (h.plain nofun nofun)
      · rintro span cls args rfl
        exact h.instantiate hp cls hparts span
      · rintro span path f v rfl
        refine hp.assignField h.rules path (List.forall_mem_singleton.1 hparts) (fun o w ho hv m hm => ?_) span
        exact ⟨rfl, h.setField f hm ho hv, trivial⟩
    · intro span v hv
      refine (hp.textOver h.rules span hv).guarded ?_ (fun _ _ _ _ => trivial) stop
      exact fun m hm => hw.showing (n + 1) v m hm hv

/-- What steps of a run are made of keeps an invariant. -/
theorem pieces (limit : Option Nat) (n : Nat) (hs : List Value) :
    Pieces P D (fun _ Q a b => Obeys I P S Q a b) hs (Exec.callMethod limit (Exec.exec limit n))
      (Exec.callMethod limit (Exec.exec limit n)) (Exec.exec limit n) (Exec.exec limit n)
      (text limit n) (text limit n) := by
  have hrun := h.watched (Watch.follows_trivial I P S) limit .exhausted n
  refine ⟨fun a name args span _ ho hargs => ?_, fun node hD => (hrun.1 node hD).right,
    fun span v hv => ?_⟩
  · refine h.callMethod (fun hm hf => ?_) ho hargs name span
    obtain ⟨hD, hbody⟩ := h.body hm hf
    exact ⟨(hrun.1 _ hD).right, hbody.imp_left fun hn => returnless_of_isBody hn limit n⟩
  · exact (hrun.2 span v hv).right

/-- What follows from an invariant holds at all turns of a run. -/
theorem throughout {w : Watch} (hw : w.Follows I P S) (limit : Option Nat) (n : Nat) {node : Node}
    (hD : D node) {m : Machine} (hm : I m) : Throughout w limit n node m :=
  fun stop => ((h.watched hw limit stop n).1 node hD m hm).1

/-- A run keeps an invariant, and ends with values and errors as they should be. -/
theorem exec (limit : Option Nat) (n : Nat) (node : Node) (hD : D node) {m : Machine} (hm : I m) :
    I (exec limit n node m).2 ∧ Ends P S P (exec limit n node m).1 := by
  exact ((h.watched (Watch.follows_trivial I P S) limit .exhausted n).1 node hD m hm).2

end Invariant

end ClassScript

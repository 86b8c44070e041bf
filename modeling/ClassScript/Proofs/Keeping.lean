import ClassScript.Proofs.Handles
import ClassScript.Run.Congruence
import ClassScript.Run.Logic

/-!
# Actions that keep handles where they belong

`Keeps hs Q a b` is said of an action `b` and a way `a` to carry it out with more care: from every tidy
machine that holds the values `hs`, both do the same, the machine stays tidy, no value leaves that does
not own its object, and a result is as `Q` says.  The rules follow the ways in which actions are put
together; the values held are those that an action may rely on.  Main statement: steps of execution keep
handles where they belong if what they are made of does (`Parts.execOver`).
-/

namespace ClassScript

namespace Machine

/-- A value that owns its object may be held. -/
theorem Tidy.hold {m : Machine} (hm : m.Tidy) {v : Value} (hv : v.Owning) :
    ({ m with held := v :: m.held } : Machine).Tidy := by
  refine ⟨fun s hs x o ho => ?_, hm.globals, List.forall_mem_cons.2 ⟨hv, hm.held⟩, hm.fields⟩
  obtain ⟨hx, hmem⟩ := hm.scopes s hs x o ho
  exact ⟨hx, List.mem_cons_of_mem v hmem⟩

/-- A method may be entered whose receiver is held and whose arguments own their objects. -/
theorem Tidy.enter {m : Machine} (hm : m.Tidy) {o : ObjId} (ho : .obj (.owned o) ∈ m.held)
    (params : List String) {args : List Value} (hargs : ∀ v ∈ args, v.Owning) :
    ({ m with
      scope := .frame o params args, callers := m.scope :: m.callers, depth := m.depth + 1 } : Machine).Tidy := by
  refine ⟨fun s hs x p hp => ?_, hm.globals, hm.held, hm.fields⟩
  rcases List.mem_cons.1 hs with rfl | hs
  · have hset := Scope.Shares.of_setAll (fun e he => hargs e.2 (List.of_mem_zip he).2) hp
    rcases Scope.mem_rebind hset with ⟨hx, hv⟩ | hnone
    · cases hv
      exact ⟨hx, ho⟩
    · exact absurd hnone List.not_mem_nil
  · exact hm.scopes s hs x p hp

/-- What an action leaves of a machine `m` to those who wait for its end. -/
structure Passes (m m' : Machine) : Prop where
  tidy : m'.Tidy
  callers : m'.callers = m.callers
  held : m'.held = m.held
  scope : ∀ x o, m'.scope.Shares x o → m.scope.Shares x o

theorem Passes.refl {m : Machine} (h : m.Tidy) : m.Passes m := ⟨h, rfl, rfl, fun _ _ hs => hs⟩

theorem Passes.trans {m m' m'' : Machine} (h : m.Passes m') (h' : m'.Passes m'') : m.Passes m'' :=
  ⟨h'.tidy, h'.callers.trans h.callers, h'.held.trans h.held,
    fun x o hs => h.scope x o (h'.scope x o hs)⟩

end Machine

/-- A signal that lets no handle out that does not own its object, and tells of no dead object. -/
def Signal.Fine : Signal → Prop
  | .returning v _ => v.Owning
  | .error e => ∀ span, e ≠ .raised (.typeError .released) span
  | .exhausted => True

namespace Exec

variable {α β : Type}

/-- An end of an action with a result as `Q` says, or else with such a signal. -/
def Fine (Q : α → Prop) : Except Signal α → Prop
  | .ok x => Q x
  | .error s => s.Fine

/-- `a` does what `b` does, and `b` keeps handles where they belong, in machines that hold `hs`. -/
def Keeps (hs : List Value) (Q : α → Prop) (a b : Exec α) : Prop :=
  ∀ m : Machine, m.Tidy → (∀ v ∈ hs, v ∈ m.held) →
    a m = b m ∧ Fine Q (b m).1 ∧ m.Passes (b m).2

namespace Keeps

variable {hs js : List Value} {Q Q' : α → Prop} {a b : Exec α}

theorem mono (h : Keeps hs Q a b) (hj : ∀ v ∈ hs, v ∈ js) (hQ : ∀ x, Q x → Q' x) :
    Keeps js Q' a b := by
  intro m hm hheld
  obtain ⟨heq, hfine, hpass⟩ := h m hm fun v hv => hheld v (hj v hv)
  refine ⟨heq, ?_, hpass⟩
  rcases hr : (b m).1 with s | x
  · rw [hr] at hfine
    exact hfine
  · rw [hr] at hfine
    exact hQ x hfine

theorem run (h : Keeps hs Q a b) : Keeps hs Q b b := fun m hm hheld => ⟨rfl, (h m hm hheld).2⟩

theorem more (h : Keeps hs Q a b) (v : Value) : Keeps (v :: hs) Q a b :=
  h.mono (fun _ hu => List.mem_cons_of_mem v hu) fun _ hx => hx

theorem pure {x : α} (hx : Q x) : Keeps hs Q (pure x) (pure x) :=
  fun _ hm _ => ⟨rfl, hx, .refl hm⟩

theorem raise {fault : RuntimeFault} (h : fault ≠ .typeError .released) (span : Span) :
    Keeps hs Q (raise fault span) (raise fault span) := by
  intro m hm _
  refine ⟨rfl, ?_, .refl hm⟩
  rintro span' ⟨⟩
  exact h rfl

theorem throw {s : Signal} (hs' : s.Fine) : Keeps hs Q (throw s) (throw s) :=
  fun _ hm _ => ⟨rfl, hs', .refl hm⟩

theorem bind {f g : α → Exec β} {R : β → Prop} (h : Keeps hs Q a b)
    (hf : ∀ x, Q x → Keeps hs R (f x) (g x)) : Keeps hs R (a >>= f) (b >>= g) := by
  intro m hm hheld
  obtain ⟨heq, hfine, hpass⟩ := h m hm hheld
  rw [bind_apply, bind_apply, heq]
  rcases hr : b m with ⟨s | x, m'⟩
  · rw [hr] at hfine hpass
    exact ⟨rfl, hfine, hpass⟩
  · rw [hr] at hfine hpass
    have hheld' : ∀ v ∈ hs, v ∈ m'.held := by
      rw [show m'.held = m.held from hpass.held]
      exact hheld
    obtain ⟨heq', hfine', hpass'⟩ := hf x hfine m' hpass.tidy hheld'
    exact ⟨heq', hfine', hpass.trans hpass'⟩

theorem read : Keeps hs (fun _ => True) (get : Exec Machine) get :=
  fun _ hm _ => ⟨rfl, trivial, .refl hm⟩

/-- An action that is started with another machine, and whose end is seen from there. -/
theorem of_apply (f : Machine → Machine) (back : Machine → Machine → Machine) {c d : Exec α}
    (hc : ∀ m, c m = ((a (f m)).1, back m (a (f m)).2))
    (hd : ∀ m, d m = ((b (f m)).1, back m (b (f m)).2)) (h : Keeps js Q a b)
    (hf : ∀ m, m.Tidy → (∀ v ∈ hs, v ∈ m.held) → (f m).Tidy ∧ ∀ v ∈ js, v ∈ (f m).held)
    (hback : ∀ m m', m.Tidy → (f m).Passes m' → m.Passes (back m m')) : Keeps hs Q c d := by
  intro m hm hheld
  obtain ⟨htidy, hheld'⟩ := hf m hm hheld
  obtain ⟨heq, hfine, hpass⟩ := h (f m) htidy hheld'
  rw [hc, hd, heq]
  exact ⟨rfl, hfine, hback m _ hm hpass⟩

theorem holding {v : Value} (hv : v.Owning) (h : Keeps (v :: hs) Q a b) :
    Keeps hs Q (holding v a) (holding v b) := by
  refine of_apply (fun m => { m with held := v :: m.held }) (fun m m' => { m' with held := m.held })
    (fun _ => rfl) (fun _ => rfl) h ?_ ?_
  · refine fun m hm hheld => ⟨hm.hold hv, fun u hu => ?_⟩
    rcases List.mem_cons.1 hu with rfl | hu
    · exact List.mem_cons_self
    · exact List.mem_cons_of_mem v (hheld u hu)
  · intro m m' hm hp
    refine ⟨⟨?_, hp.tidy.globals, hm.held, hp.tidy.fields⟩, hp.callers, rfl, hp.scope⟩
    -- the scope may have lost handles but has no new ones
    intro s hs x o ho
    rcases List.mem_cons.1 hs with rfl | hs
    · exact hm.scopes m.scope List.mem_cons_self x o (hp.scope x o ho)
    · have hcallers : m'.callers = m.callers := hp.callers
      rw [show m'.callers = m.callers from hcallers] at hs
      exact hm.scopes s (List.mem_cons_of_mem _ hs) x o ho

theorem traced (e : Event) (h : Keeps hs Q a b) : Keeps hs Q (traced e a) (traced e b) := by
  refine of_apply (fun m => { m with trace := m.trace.push e })
    (fun _ m' => { m' with trace := m'.trace.push .leave }) (fun _ => rfl) (fun _ => rfl) h ?_ ?_
  · intro m hm hheld
    exact ⟨⟨hm.scopes, hm.globals, hm.held, hm.fields⟩, hheld⟩
  · intro m m' hm hp
    exact ⟨⟨hp.tidy.scopes, hp.tidy.globals, hp.tidy.held, hp.tidy.fields⟩, hp.callers, hp.held, hp.scope⟩

/-- The frame of a call holds its receiver, which whoever calls holds, and owning arguments. -/
theorem inFrame {o : ObjId} {params : List String} {args : List Value}
    (ho : .obj (.owned o) ∈ hs) (hargs : ∀ v ∈ args, v.Owning) (h : Keeps hs Q a b) :
    Keeps hs Q (inFrame (.frame o params args) a) (inFrame (.frame o params args) b) := by
  refine of_apply
    (fun m => { m with
      scope := .frame o params args, callers := m.scope :: m.callers, depth := m.depth + 1 })
    (fun m m' => { m' with scope := m.scope, callers := m.callers, depth := m'.depth - 1 })
    (fun _ => rfl) (fun _ => rfl) h ?_ ?_
  · exact fun m hm hheld => ⟨hm.enter (hheld _ ho) params hargs, hheld⟩
  · intro m m' hm hp
    have hheld : m'.held = m.held := hp.held
    refine ⟨⟨?_, hm.globals, hp.tidy.held, hp.tidy.fields⟩, rfl, hheld, fun _ _ hs => hs⟩
    show ∀ s ∈ m.scope :: m.callers, ∀ x p, s.Shares x p → x = selfName ∧ .obj (.owned p) ∈ m'.held
    rw [hheld]
    exact hm.scopes

theorem tryCatch {f g : Signal → Exec α} (h : Keeps hs Q a b)
    (hf : ∀ s, s.Fine → Keeps hs Q (f s) (g s)) :
    Keeps hs Q (MonadExcept.tryCatch a f) (MonadExcept.tryCatch b g) := by
  intro m hm hheld
  obtain ⟨heq, hfine, hpass⟩ := h m hm hheld
  rw [tryCatch_apply, tryCatch_apply, heq]
  rcases hr : b m with ⟨s | x, m'⟩
  · rw [hr] at hfine hpass
    have hheld' : ∀ v ∈ hs, v ∈ m'.held := by
      rw [show m'.held = m.held from hpass.held]
      exact hheld
    obtain ⟨heq', hfine', hpass'⟩ := hf s hfine m' hpass.tidy hheld'
    exact ⟨heq', hfine', hpass.trans hpass'⟩
  · rw [hr] at hfine hpass
    exact ⟨rfl, hfine, hpass⟩

theorem closed {a b : Exec Value} (h : Keeps hs Value.Owning a b) :
    Keeps hs Value.Owning (closed a) (closed b) := by
  refine h.tryCatch fun s hs => ?_
  cases s with
  | returning v span => exact .raise (by simp) span
  | error e => exact .throw hs
  | exhausted => exact .throw hs

theorem returned {a b : Exec Value} (h : Keeps hs Value.Owning a b) :
    Keeps hs Value.Owning (returned a) (returned b) := by
  have hnone : Value.none.Owning := nofun
  refine tryCatch (h.bind fun _ _ => .pure hnone) fun s hs => ?_
  cases s with
  | returning v span => exact .pure hs
  | error e => exact .throw hs
  | exhausted => exact .throw hs

/-! ### Primitive actions -/

theorem tell (e : Event) : Keeps hs (fun _ => True) (tell e) (tell e) :=
  fun _ hm _ => ⟨rfl, trivial, ⟨hm.scopes, hm.globals, hm.held, hm.fields⟩, rfl, rfl, fun _ _ hs => hs⟩

theorem write (text : String) : Keeps hs (fun _ => True) (write text) (write text) := by
  intro m hm _
  have hpass : m.Passes { m with sink := m.sink.write text } :=
    ⟨⟨hm.scopes, hm.globals, hm.held, hm.fields⟩, rfl, rfl, fun _ _ hs => hs⟩
  refine ⟨rfl, ?_⟩
  rw [write_apply]
  refine ⟨?_, hpass⟩
  dsimp only
  split
  · trivial
  · exact fun span => by simp

theorem create (cls : ClassId) (arity : Nat) :
    Keeps hs (fun _ => True) (create cls arity) (create cls arity) := by
  intro m hm _
  refine ⟨rfl, trivial, ⟨hm.scopes, hm.globals, hm.held, ?_⟩, rfl, rfl, fun _ _ hs => hs⟩
  intro p x o ho
  rcases Heap.shares_allocate ho with ho | ho
  · exact ho
  · exact hm.fields p x o ho

theorem setName (x : String) {v : Value} (hv : v.Owning) :
    Keeps hs (fun _ => True) (modify fun m => { m with scope := m.scope.set x v } : Exec PUnit)
      (modify fun m => { m with scope := m.scope.set x v }) := by
  intro m hm _
  refine ⟨rfl, trivial, ⟨?_, ?_, hm.held, hm.fields⟩, rfl, rfl, fun y o ho => ho.of_set hv⟩
  · intro s hs y o ho
    rcases List.mem_cons.1 hs with rfl | hs
    · exact hm.scopes m.scope List.mem_cons_self y o (ho.of_set hv)
    · exact hm.scopes s (List.mem_cons_of_mem _ hs) y o ho
  · intro s hs y o ho
    cases hc : m.callers with
    | nil =>
      have hlast : (m.scope.set x v :: m.callers).getLast? = some (m.scope.set x v) := by rw [hc]; rfl
      have hlast' : (m.scope :: m.callers).getLast? = some m.scope := by rw [hc]; rfl
      obtain rfl := Option.some.inj (hlast.symm.trans hs)
      exact hm.globals m.scope hlast' y o (ho.of_set hv)
    | cons k ks =>
      have hlast : (m.scope.set x v :: m.callers).getLast? = (m.scope :: m.callers).getLast? := by
        rw [hc, List.getLast?_cons_cons, List.getLast?_cons_cons]
      exact hm.globals s (hlast ▸ hs) y o ho

theorem setField (o : ObjId) (f : String) {v : Value} (hv : v.Owning) :
    Keeps hs (fun _ => True) (modify fun m => { m with heap := m.heap.setField o f v } : Exec PUnit)
      (modify fun m => { m with heap := m.heap.setField o f v }) := by
  intro m hm _
  refine ⟨rfl, trivial, ⟨hm.scopes, hm.globals, hm.held, ?_⟩, rfl, rfl, fun _ _ hs => hs⟩
  intro p x q hq
  exact hm.fields p x q (Heap.shares_setField hv hq)

theorem object {c : Handle} (hc : (Value.obj c).Owning) (span : Span) :
    Keeps hs (fun o => c = .owned o) (object c span) (object c span) := by
  cases c with
  | owned o => exact Keeps.bind .read fun _ _ => .pure rfl
  | shared o => exact absurd rfl (hc o)

theorem readPath (path : List String) (span : Span) :
    Keeps hs Value.Owning (readPath path span) (readPath path span) := by
  refine .bind .read fun m _ => ?_
  split
  · rename_i v hv
    exact .pure (Machine.owning_of_read hv)
  · exact .raise (by simp) span

theorem checkDepth (limit : Option Nat) (span : Span) :
    Keeps hs (fun _ => True) (checkDepth limit span) (checkDepth limit span) := by
  cases limit with
  | none => exact .pure trivial
  | some n =>
    refine .bind .read fun m _ => ?_
    split
    · exact .raise (by simp) span
    · exact .pure trivial

/-- A method called on an object that is held keeps handles where they belong if bodies do. -/
theorem callMethod {limit : Option Nat} {e e' : Node → Exec Value}
    (he : ∀ n, Keeps hs Value.Owning (e n) (e' n)) {o : ObjId} {args : List Value}
    (ho : .obj (.owned o) ∈ hs) (hargs : ∀ v ∈ args, v.Owning) (name : String) (span : Span) :
    Keeps hs Value.Owning (callMethod limit e o name args span)
      (callMethod limit e' o name args span) := by
  refine .bind .read fun m _ => .traced _ (.bind .read fun m' _ => ?_)
  split
  · exact .raise (by simp) span
  · exact .bind (.checkDepth limit span) fun _ _ => .inFrame ho hargs (.closed (he _))

end Keeps

/-! ### Steps -/

/-- Keeping handles where they belong is a logic of actions. -/
theorem Keeps.logic : Logic Value.Owning (fun _ _ => True) Keeps where
  plain h _ := fun o ho => h (.shared o) ho
  cls _ := nofun
  mono := .mono
  pure := .pure
  raise span h := .raise (by rintro rfl; exact h) span
  ret hv _ := .throw hv
  bind := .bind
  read _ _ h := .bind .read fun m _ => h m
  holding := .holding
  object span ha := by
    refine (Keeps.object ha span).mono (fun _ hv => hv) ?_
    rintro o rfl
    exact ⟨rfl, ha⟩
  readPath := .readPath
  write := .write
  tell _ := .tell _
  create cls arity := (Keeps.create cls arity).mono (fun _ hv => hv) fun _ _ => nofun
  setName := .setName
  setField f _ _ hv := .setField _ f hv

/-- What two steps are made of keeps handles where they belong: calls of methods on objects that are
held, with arguments that own what they are, nodes, and texts of such values. -/
structure Parts (hs : List Value) (c c' : Call) (e e' : Node → Exec Value)
    (t t' : Span → Value → Exec String) : Prop where
  call : ∀ o name args span, (∀ v ∈ args, v.Owning) →
    Keeps (.obj (.owned o) :: hs) Value.Owning (c o name args span) (c' o name args span)
  node : ∀ n, Keeps hs Value.Owning (e n) (e' n)
  text : ∀ span v, v.Owning → Keeps hs (fun _ => True) (t span v) (t' span v)

namespace Parts

variable {hs : List Value} {c c' : Call} {e e' : Node → Exec Value}
  {t t' : Span → Value → Exec String} (h : Parts hs c c' e e' t t')
include h

theorem pieces : Pieces Value.Owning (fun _ => True) Keeps hs c c' e e' t t' where
  call a name args span ha _ hargs := by
    cases a with
    | owned o => exact h.call o name args span hargs
    | shared o => exact absurd rfl (ha o)
  node n _ := h.node n
  text := h.text

theorem textOver (span : Span) {v : Value} (hv : v.Owning) :
    Keeps hs (fun _ => True) (textOver c t span v) (textOver c' t' span v) :=
  h.pieces.textOver Keeps.logic.toRules span hv

/-- A step of execution keeps handles where they belong if what it is made of does. -/
theorem execOver (node : Node) :
    Keeps hs Value.Owning (execOver c e t node) (execOver c' e' t' node) :=
  h.pieces.execOver Keeps.logic (fun _ _ => trivial) (fun _ _ _ _ _ => trivial) fun _ _ _ => .returned

end Parts

end Exec

end ClassScript

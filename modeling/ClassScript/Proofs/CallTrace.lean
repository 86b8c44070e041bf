import ClassScript.Proofs.CallDepth
import ClassScript.Run.Logic

/-!
# Calls in the trace

A run tells of the beginning and the end of each call, and these belong together like parentheses
(`Event.Nested`).  Under a limit no more than one call stands in one another than the limit says, the last of
them being refused.  A call is told of at the place in the trace that comes next when it is made, and at no
other place (`tellsCall_iff`).  Main statement: `runs_clean`.
-/

namespace ClassScript

/-! ### Events that belong together -/

/-- Events in which the beginnings and the ends of calls belong together, with at most `k` calls in one
another. -/
inductive Event.Nested : Nat → List Event → Prop
  | nil (k : Nat) : Nested k []
  | single {k : Nat} {e : Event} {w : List Event} (h : e.Single) (rest : Nested k w) : Nested k (e :: w)
  | call {k : Nat} (cls method : String) (arity : Nat) {inner w : List Event} (body : Nested k inner)
      (rest : Nested (k + 1) w) : Nested (k + 1) (.enter cls method arity :: (inner ++ .leave :: w))

namespace Event.Nested

theorem mono {k l : Nat} {w : List Event} (h : Nested k w) (hk : k ≤ l) : Nested l w := by
  induction h generalizing l with
  | nil => exact .nil l
  | single he _ ih => exact .single he (ih hk)
  | call cls method arity _ _ ih ih' =>
    obtain ⟨j, rfl⟩ : ∃ j, l = j + 1 := ⟨l - 1, by omega⟩
    exact .call cls method arity (ih (by omega)) (ih' hk)

theorem append {k : Nat} {w w' : List Event} (h : Nested k w) (h' : Nested k w') : Nested k (w ++ w') := by
  induction h with
  | nil => exact h'
  | single he _ ih => exact .single he (ih h')
  | call cls method arity body _ _ ih =>
    rw [List.cons_append, List.append_assoc, List.cons_append]
    exact .call cls method arity body (ih h')

end Event.Nested

namespace Exec

variable {limit : Option Nat} {d k : Nat} {α β : Type}

/-- Started with `d` methods being run, an action ends so and tells of at most `k` calls in one another. -/
def Tells (d k : Nat) (Q : α → Prop) (a : Exec α) : Prop :=
  ∀ m, m.depth = d → (a m).2.depth = d ∧
    (∃ w, Event.Nested k w ∧ (a m).2.trace.toList = m.trace.toList ++ w) ∧ ∀ x, (a m).1 = .ok x → Q x

namespace Tells

variable {Q Q' : α → Prop} {a : Exec α}

theorem mono {l : Nat} (h : Tells d k Q a) (hk : k ≤ l) (hQ : ∀ x, Q x → Q' x) : Tells d l Q' a := by
  intro m hm
  obtain ⟨hd, ⟨w, hw, htrace⟩, hx⟩ := h m hm
  exact ⟨hd, ⟨w, hw.mono hk, htrace⟩, fun x hr => hQ x (hx x hr)⟩

/-- An action that tells of nothing. -/
theorem silent (h : ∀ m, (a m).2.depth = m.depth ∧ (a m).2.trace = m.trace)
    (hQ : ∀ m x, (a m).1 = .ok x → Q x) : Tells d k Q a := by
  intro m hm
  refine ⟨(h m).1.trans hm, ⟨[], .nil k, ?_⟩, hQ m⟩
  rw [(h m).2, List.append_nil]

/-- An action that tells of one event. -/
theorem event {e : Event} (he : e.Single) (h : ∀ m, (a m).2.depth = m.depth ∧ (a m).2.trace = m.trace.push e)
    (hQ : ∀ m x, (a m).1 = .ok x → Q x) : Tells d k Q a := by
  intro m hm
  refine ⟨(h m).1.trans hm, ⟨[e], .single he (.nil k), ?_⟩, hQ m⟩
  rw [(h m).2, Array.toList_push]

theorem bind {f : α → Exec β} {R : β → Prop} (h : Tells d k Q a) (hf : ∀ x, Q x → Tells d k R (f x)) :
    Tells d k R (a >>= f) := by
  intro m hm
  obtain ⟨hd, ⟨w, hw, htrace⟩, hx⟩ := h m hm
  rw [bind_apply]
  rcases hr : a m with ⟨s | x, m'⟩
  · rw [hr] at hd htrace
    exact ⟨hd, ⟨w, hw, htrace⟩, nofun⟩
  · rw [hr] at hd htrace hx
    obtain ⟨hd', ⟨w', hw', htrace'⟩, hy⟩ := hf x (hx x rfl) m' hd
    refine ⟨hd', ⟨w ++ w', hw.append hw', ?_⟩, hy⟩
    rw [htrace', ← List.append_assoc]
    exact congrArg (· ++ w') htrace

/-- To tell of calls in this way is a logic of actions. -/
theorem logic (d k : Nat) : Logic (fun _ => True) (fun _ _ => True) fun _ Q a _ => Tells d k Q a where
  plain _ _ := trivial
  cls _ := trivial
  mono h _ hQ := h.mono (Nat.le_refl k) hQ
  pure hx := .silent (fun _ => ⟨rfl, rfl⟩) fun _ _ heq => Except.ok.inj heq ▸ hx
  raise _ _ := .silent (fun _ => ⟨rfl, rfl⟩) fun _ _ => nofun
  ret _ _ := .silent (fun _ => ⟨rfl, rfl⟩) fun _ _ => nofun
  bind := .bind
  read _ _ h := fun m => h m m
  holding _ h := fun m hm => h _ hm
  object {_ a} span _ := by
    refine .silent (fun m => ?_) fun m o ho => ⟨id_of_object ho, trivial⟩
    rw [object_apply]
    cases m.resolve a <;> exact ⟨rfl, rfl⟩
  readPath path span := by
    refine .silent (fun m => ?_) fun _ _ _ => trivial
    rw [readPath_apply]
    cases m.read path <;> exact ⟨rfl, rfl⟩
  write text := by
    refine .silent (fun m => ?_) fun _ _ _ => trivial
    rw [write_apply]
    exact ⟨rfl, rfl⟩
  tell he := .event he (fun _ => ⟨rfl, rfl⟩) fun _ _ _ => trivial
  create cls arity := .event (e := .newInstance cls.name arity) trivial (fun _ => ⟨rfl, rfl⟩) fun _ _ _ => trivial
  setName _ _ _ := .silent (fun _ => ⟨rfl, rfl⟩) fun _ _ _ => trivial
  setField _ _ _ _ := .silent (fun _ => ⟨rfl, rfl⟩) fun _ _ _ => trivial

theorem returned {a : Exec Value} {Q : Value → Prop} (h : Tells d k Q a) :
    Tells d k (fun _ => True) (returned a) := by
  intro m hm
  obtain ⟨hd, hw, -⟩ := h m hm
  rw [returned_apply]
  exact ⟨hd, hw, fun _ _ => trivial⟩

end Tells

/-- What a call tells of: its beginning, what happens meanwhile with at most `k` calls in one another, and
its end. -/
def CallTold (k : Nat) (o : ObjId) (name : String) (args : List Value) (m m' : Machine) : Prop :=
  ∃ w, Event.Nested k w ∧ m'.trace.toList =
    m.trace.toList ++ .enter (m.heap.classOf o).name name args.length :: (w ++ [.leave])

theorem toList_trace_told (m : Machine) (e : Event) : (m.told e).trace.toList = m.trace.toList ++ [e] :=
  Array.toList_push

/-- A call tells of its beginning and its end, also if no method is found and if it is refused. -/
theorem callTold_callMethod {e : Node → Exec Value} {m : Machine}
    (hbody : (∀ N ∈ limit, m.depth < N) → ∀ body, Tells (m.depth + 1) k (fun _ => True) (e body))
    (o : ObjId) (name : String) (args : List Value) (span : Span) :
    (callMethod limit e o name args span m).2.depth = m.depth ∧
      CallTold k o name args m (callMethod limit e o name args span m).2 := by
  let enter : Event := .enter (m.heap.classOf o).name name args.length
  -- a call without a body tells of nothing in between
  have hnone (m' : Machine) (hm' : m' = (m.told enter).told .leave) :
      m'.depth = m.depth ∧ CallTold k o name args m m' := by
    subst hm'
    refine ⟨rfl, [], .nil k, ?_⟩
    rw [toList_trace_told, toList_trace_told, List.append_assoc]
    rfl
  cases hf : m.target? o name args with
  | none =>
    rw [callMethod_apply, hf]
    exact hnone _ rfl
  | some method =>
    by_cases hd : ∀ N ∈ limit, m.depth < N
    · obtain ⟨hdepth, ⟨w, hw, htrace⟩, -⟩ := hbody hd method.body (m.inBody o name args method) rfl
      rw [callMethod_of_found hf hd]
      refine ⟨congrArg (· - 1) hdepth, w, hw, ?_⟩
      have hstart : (m.inBody o name args method).trace.toList = m.trace.toList ++ [enter] :=
        Array.toList_push
      show (Machine.told _ .leave).trace.toList = _
      rw [toList_trace_told, htrace, hstart, List.append_assoc, List.append_assoc]
      rfl
    · have hd' : ¬ ∀ N ∈ limit, (m.told enter).depth < N := hd
      obtain ⟨e', he⟩ := checkDepth_of_not_lt hd' span
      rw [callMethod_apply, hf, traced_apply]
      dsimp only
      rw [bind_apply, he]
      exact hnone _ rfl

/-- The number of calls that there is room for in one another with `n` steps of fuel where `d` methods are
being run. -/
def room (limit : Option Nat) (n d : Nat) : Nat :=
  match limit with
  | none => n
  | some N => N - d

theorem room_body (hd : ∀ N ∈ limit, d < N) (n : Nat) : room limit n (d + 1) + 1 ≤ room limit (n + 1) d := by
  cases limit with
  | none => exact Nat.le_refl _
  | some N =>
    have hlt : d < N := hd N rfl
    show N - (d + 1) + 1 ≤ N - d
    omega

theorem room_le_succ (limit : Option Nat) (n d : Nat) : room limit n d ≤ room limit (n + 1) d := by
  cases limit with
  | none => exact Nat.le_succ n
  | some N => exact Nat.le_refl _

/-- A run tells of no more calls in one another than there is room for, and of one that is refused. -/
theorem tells_exec (limit : Option Nat) (n d : Nat) :
    (∀ node, Tells d (room limit n d + 1) (fun _ => True) (exec limit n node)) ∧
      ∀ span v, Tells d (room limit n d + 1) (fun _ => True) (text limit n span v) := by
  induction n generalizing d with
  | zero =>
    constructor
    · exact fun _ => .silent (fun _ => ⟨rfl, rfl⟩) fun _ _ => nofun
    · exact fun _ _ => .silent (fun _ => ⟨rfl, rfl⟩) fun _ _ => nofun
  | succ n ih =>
    have hle : room limit n d + 1 ≤ room limit (n + 1) d + 1 := Nat.succ_le_succ (room_le_succ limit n d)
    have hcall (o : ObjId) (name : String) (args : List Value) (span : Span) :
        Tells d (room limit (n + 1) d + 1) (fun _ => True) (callMethod limit (exec limit n) o name args span) := by
      rintro m rfl
      have hbody : (∀ N ∈ limit, m.depth < N) → ∀ body,
          Tells (m.depth + 1) (room limit (n + 1) m.depth) (fun _ => True) (exec limit n body) :=
        fun hd body => ((ih (m.depth + 1)).1 body).mono (room_body hd n) fun _ _ => trivial
      obtain ⟨hd, w, hw, htrace⟩ := callTold_callMethod hbody o name args span
      exact ⟨hd, ⟨_, .call _ _ _ hw (.nil _), htrace⟩, fun _ _ => trivial⟩
    have hp : Pieces (fun _ => True) (fun _ => True)
        (fun _ Q a _ => Tells d (room limit (n + 1) d + 1) Q a) []
        (callMethod limit (exec limit n)) (callMethod limit (exec limit n)) (exec limit n) (exec limit n)
        (text limit n) (text limit n) :=
      ⟨fun a name args span _ _ _ => hcall a.id name args span,
        fun node _ => ((ih d).1 node).mono hle fun _ _ => trivial,
        fun span v _ => ((ih d).2 span v).mono hle fun _ _ => trivial⟩
    have h := Tells.logic d (room limit (n + 1) d + 1)
    constructor
    · exact fun node => hp.execOver h (fun _ _ => trivial) (fun _ _ _ _ _ => trivial) fun _ _ _ => .returned
    · exact fun span v => hp.textOver h.toRules span trivial

/-! ### The places of calls -/

/-- The event at a place of the trace is the beginning of a call. -/
def TellsCall (k : Nat) (m : Machine) : Prop := ∃ cls method arity, m.trace[k]? = some (.enter cls method arity)

/-- An event that is told of does not change what stands at a place before it, nor at one behind it. -/
theorem tellsCall_told {k : Nat} {m : Machine} {e : Event} (h : TellsCall k m) : TellsCall k (m.told e) := by
  obtain ⟨cls, method, arity, hk⟩ := h
  obtain ⟨hlt, -⟩ := Array.getElem?_eq_some_iff.1 hk
  refine ⟨cls, method, arity, ?_⟩
  show (m.trace.push e)[k]? = _
  rwa [Array.getElem?_push, if_neg (Nat.ne_of_lt hlt)]

theorem not_tellsCall_told {k : Nat} {m : Machine} {e : Event} (h : ¬ TellsCall k m)
    (he : e.Single ∨ e = .leave ∨ m.trace.size ≠ k) : ¬ TellsCall k (m.told e) := by
  rintro ⟨cls, method, arity, hk⟩
  change (m.trace.push e)[k]? = _ at hk
  rw [Array.getElem?_push] at hk
  split at hk
  · rename_i heq
    cases hk
    rcases he with hsingle | heq' | hne
    · exact hsingle
    · cases heq'
    · exact hne heq.symm
  · exact h ⟨cls, method, arity, hk⟩

/-- Watches that no method is called when just `k` events have been told of. -/
def noCallAt (k : Nat) : Watch where
  calling _ _ _ _ _ m := m.trace.size ≠ k

/-- `b` leaves calls in the trace.  As long as it does not tell of one at the place `k`, `a` does the same;
and if it does, `a` stops, if it stops with an error. -/
def Places (k : Nat) (stop : Signal) (Q : α → Prop) (a b : Exec α) : Prop :=
  ∀ m, (TellsCall k m → TellsCall k (b m).2) ∧ (∀ x, (b m).1 = .ok x → Q x) ∧
    (¬ TellsCall k m → a m = b m ∧ ¬ TellsCall k (b m).2 ∨
      TellsCall k (b m).2 ∧ ∀ e, stop = .error e → (a m).1 = .error stop)

/-- An action behind one that ends with a signal is not done. -/
theorem fst_bind_of_error {a : Exec α} {m : Machine} {s : Signal} (f : α → Exec β) (h : (a m).1 = .error s) :
    ((a >>= f) m).1 = .error s := by
  rw [bind_apply]
  rcases hr : a m with ⟨s' | x, m'⟩
  · rw [hr] at h
    exact congrArg Except.error (Except.error.inj h)
  · rw [hr] at h
    cases h

namespace Places

variable {stop : Signal} {Q Q' : α → Prop} {a b : Exec α}

theorem mono (h : Places k stop Q a b) (hQ : ∀ x, Q x → Q' x) : Places k stop Q' a b :=
  fun m => ⟨(h m).1, fun x hx => hQ x ((h m).2.1 x hx), (h m).2.2⟩

/-- An action that tells of nothing. -/
theorem silent (h : ∀ m, (b m).2.trace = m.trace) (hQ : ∀ m x, (b m).1 = .ok x → Q x) :
    Places k stop Q b b := by
  intro m
  have hiff : TellsCall k (b m).2 ↔ TellsCall k m := by rw [TellsCall, TellsCall, h m]
  exact ⟨hiff.2, hQ m, fun hm => .inl ⟨rfl, fun hb => hm (hiff.1 hb)⟩⟩

/-- An action that tells of one event. -/
theorem event {e : Event} (he : e.Single) (h : ∀ m, (b m).2.trace = m.trace.push e)
    (hQ : ∀ m x, (b m).1 = .ok x → Q x) : Places k stop Q b b := by
  intro m
  have hiff : TellsCall k (b m).2 ↔ TellsCall k (m.told e) := by rw [TellsCall, TellsCall, h m]; rfl
  refine ⟨fun hm => hiff.2 (tellsCall_told hm), hQ m, fun hm => .inl ⟨rfl, fun hb => ?_⟩⟩
  exact not_tellsCall_told hm (.inl he) (hiff.1 hb)

theorem bind {f g : α → Exec β} {R : β → Prop} (h : Places k stop Q a b)
    (hf : ∀ x, Q x → Places k stop R (f x) (g x)) : Places k stop R (a >>= f) (b >>= g) := by
  intro m
  obtain ⟨hgrow, hx, hcase⟩ := h m
  rw [bind_apply b]
  rcases hr : b m with ⟨s | x, m'⟩
  · rw [hr] at hgrow hcase
    refine ⟨hgrow, nofun, fun hm => ?_⟩
    rcases hcase hm with ⟨heq, hnot⟩ | ⟨htells, hstop⟩
    · rw [bind_apply, heq]
      exact .inl ⟨rfl, hnot⟩
    · exact .inr ⟨htells, fun e he => fst_bind_of_error f (hstop e he)⟩
  · rw [hr] at hgrow hx hcase
    obtain ⟨hgrow', hy, hcase'⟩ := hf x (hx x rfl) m'
    refine ⟨fun hm => hgrow' (hgrow hm), hy, fun hm => ?_⟩
    rcases hcase hm with ⟨heq, hnot⟩ | ⟨htells, hstop⟩
    · rw [bind_apply, heq]
      exact hcase' hnot
    · exact .inr ⟨hgrow' htells, fun e he => fst_bind_of_error f (hstop e he)⟩

/-- An action that is started with another machine of the same trace, and whose end is seen from there. -/
theorem of_apply (f : Machine → Machine) (back : Machine → Machine → Machine) {c d : Exec α}
    (hc : ∀ m, c m = ((a (f m)).1, back m (a (f m)).2)) (hd : ∀ m, d m = ((b (f m)).1, back m (b (f m)).2))
    (h : Places k stop Q a b) (hf : ∀ m, (f m).trace = m.trace)
    (hback : ∀ m m', (back m m').trace = m'.trace) : Places k stop Q c d := by
  intro m
  obtain ⟨hgrow, hx, hcase⟩ := h (f m)
  have hstart : TellsCall k (f m) ↔ TellsCall k m := by rw [TellsCall, TellsCall, hf m]
  have hend (m' : Machine) : TellsCall k (back m m') ↔ TellsCall k m' := by
    rw [TellsCall, TellsCall, hback m m']
  rw [hc, hd]
  refine ⟨fun hm => (hend _).2 (hgrow (hstart.2 hm)), hx, fun hm => ?_⟩
  rcases hcase (fun hm' => hm (hstart.1 hm')) with ⟨heq, hnot⟩ | ⟨htells, hstop⟩
  · rw [heq]
    exact .inl ⟨rfl, fun hb => hnot ((hend _).1 hb)⟩
  · exact .inr ⟨(hend _).2 htells, hstop⟩

/-- What becomes of the end of an action does not matter, but for errors. -/
theorem mapEnd {f : Except Signal α → Except Signal β} {R : β → Prop} {c d : Exec β}
    (hc : ∀ m, c m = (f (a m).1, (a m).2)) (hd : ∀ m, d m = (f (b m).1, (b m).2))
    (hf : ∀ e, f (.error (.error e)) = .error (.error e)) (h : Places k stop Q a b)
    (hR : ∀ r x, f r = .ok x → R x) : Places k stop R c d := by
  intro m
  obtain ⟨hgrow, -, hcase⟩ := h m
  rw [hc, hd]
  refine ⟨hgrow, fun x hx => hR _ x hx, fun hm => ?_⟩
  rcases hcase hm with ⟨heq, hnot⟩ | ⟨htells, hstop⟩
  · rw [heq]
    exact .inl ⟨rfl, hnot⟩
  · refine .inr ⟨htells, fun e he => ?_⟩
    dsimp only
    rw [hstop e he, he, hf]

theorem holding (v : Value) (h : Places k stop Q a b) : Places k stop Q (holding v a) (holding v b) :=
  .of_apply (fun m => { m with held := v :: m.held }) (fun m m' => { m' with held := m.held })
    (fun _ => rfl) (fun _ => rfl) h (fun _ => rfl) fun _ _ => rfl

theorem inFrame (frame : Scope) (h : Places k stop Q a b) :
    Places k stop Q (inFrame frame a) (inFrame frame b) :=
  .of_apply (fun m => { m with scope := frame, callers := m.scope :: m.callers, depth := m.depth + 1 })
    (fun m m' => { m' with scope := m.scope, callers := m.callers, depth := m'.depth - 1 })
    (fun _ => rfl) (fun _ => rfl) h (fun _ => rfl) fun _ _ => rfl

/-- To tell of calls at the same places is a logic of actions. -/
theorem logic (k : Nat) (stop : Signal) :
    Logic (fun _ => True) (fun _ _ => True) fun _ Q a b => Places k stop Q a b where
  plain _ _ := trivial
  cls _ := trivial
  mono h _ hQ := h.mono hQ
  pure hx := .silent (fun _ => rfl) fun _ _ heq => Except.ok.inj heq ▸ hx
  raise _ _ := .silent (fun _ => rfl) fun _ _ => nofun
  ret _ _ := .silent (fun _ => rfl) fun _ _ => nofun
  bind := .bind
  read _ _ h := fun m => h m m
  holding _ := .holding _
  object {_ a} span _ := by
    refine .silent (fun m => ?_) fun m o ho => ⟨id_of_object ho, trivial⟩
    rw [object_apply]
    cases m.resolve a <;> rfl
  readPath path span := by
    refine .silent (fun m => ?_) fun _ _ _ => trivial
    rw [readPath_apply]
    cases m.read path <;> rfl
  write text := by
    refine .silent (fun m => ?_) fun _ _ _ => trivial
    rw [write_apply]
  tell he := .event he (fun _ => rfl) fun _ _ _ => trivial
  create cls arity := .event (e := .newInstance cls.name arity) trivial (fun _ => rfl) fun _ _ _ => trivial
  setName _ _ _ := .silent (fun _ => rfl) fun _ _ _ => trivial
  setField _ _ _ _ := .silent (fun _ => rfl) fun _ _ _ => trivial

theorem checkDepth (limit : Option Nat) (span : Span) :
    Places k stop (fun _ => True) (checkDepth limit span) (checkDepth limit span) := by
  refine .silent (fun m => ?_) fun _ _ _ => trivial
  by_cases hd : ∀ N ∈ limit, m.depth < N
  · rw [checkDepth_of_lt hd]
  · obtain ⟨e, he⟩ := checkDepth_of_not_lt hd span
    rw [he]

/-- A call is told of at the place that comes next when it is made. -/
theorem callMethod {e e' : Node → Exec Value} (he : ∀ node, Places k stop (fun _ => True) (e node) (e' node))
    (n : Nat) (o : ObjId) (name : String) (args : List Value) (span : Span) :
    Places k stop (fun _ => True)
      (guarded ((noCallAt k).calling n o name args span) ((noCallAt k).called n o) stop
        (Exec.callMethod limit e o name args span))
      (Exec.callMethod limit e' o name args span) := by
  intro m
  let enter : Event := .enter (m.heap.classOf o).name name args.length
  obtain ⟨rest, hrest, hcall⟩ : ∃ rest : (Node → Exec Value) → Exec Value,
      Places k stop (fun _ => True) (rest e) (rest e') ∧ ∀ e, Exec.callMethod limit e o name args span m =
        ((rest e (m.told enter)).1, (rest e (m.told enter)).2.told .leave) := by
    cases hf : m.target? o name args with
    | none =>
      refine ⟨fun _ => raise (.methodNotFound (m.heap.classOf o).name name args.length) span,
        .silent (fun _ => rfl) fun _ _ => nofun, fun e => ?_⟩
      rw [callMethod_apply, hf]
      rfl
    | some method =>
      refine ⟨fun e => Exec.checkDepth limit span >>= fun _ =>
        Exec.inFrame (.frame o method.params args) (closed (e method.body)), ?_, fun e => ?_⟩
      · refine .bind (checkDepth limit span) fun _ _ => .inFrame _ ?_
        exact (he _).mapEnd (closed_apply _) (closed_apply _) (fun _ => rfl) fun _ _ _ => trivial
      · rw [callMethod_apply, hf]
        rfl
  obtain ⟨hgrow, -, hcase⟩ := hrest (m.told enter)
  rw [hcall e']
  refine ⟨fun hm => tellsCall_told (hgrow (tellsCall_told hm)), fun _ _ => trivial, fun hm => ?_⟩
  by_cases hk : m.trace.size = k
  · -- the call is told of at `k`, which the watch does not let pass
    have hplace : TellsCall k (m.told enter) := by
      refine ⟨(m.heap.classOf o).name, name, args.length, ?_⟩
      rw [← hk]
      exact Array.getElem?_push_size
    refine .inr ⟨tellsCall_told (hgrow hplace), fun _ _ => ?_⟩
    rw [guarded_of_not_before (not_not_intro hk)]
  · rw [guarded_of_holds hk trivial, hcall e]
    rcases hcase (not_tellsCall_told hm (.inr (.inr hk))) with ⟨heq, hnot⟩ | ⟨htells, hstop⟩
    · rw [heq]
      exact .inl ⟨rfl, not_tellsCall_told hnot (.inr (.inl rfl))⟩
    · exact .inr ⟨tellsCall_told htells, hstop⟩

end Places

/-- A run that is watched for a call at a place stops if there is one. -/
theorem places_watch (limit : Option Nat) (k : Nat) (stop : Signal) (n : Nat) :
    (∀ node, Places k stop (fun _ => True) (watch (noCallAt k) stop limit n node) (exec limit n node)) ∧
      ∀ span v, Places k stop (fun _ => True) (watchText (noCallAt k) stop limit n span v)
        (text limit n span v) := by
  have h := Places.logic k stop
  induction n with
  | zero =>
    constructor
    · exact fun _ => .silent (fun _ => rfl) fun _ _ => nofun
    · exact fun _ _ => .silent (fun _ => rfl) fun _ _ => nofun
  | succ n ih =>
    have hp : Pieces (fun _ => True) (fun _ => True) (fun _ Q a b => Places k stop Q a b) []
        (watchCall (noCallAt k) stop limit n (watch (noCallAt k) stop limit n)) (callMethod limit (exec limit n))
        (watch (noCallAt k) stop limit n) (exec limit n) (watchText (noCallAt k) stop limit n) (text limit n) :=
      ⟨fun a name args span _ _ _ => .callMethod ih.1 n a.id name args span, fun node _ => ih.1 node,
        fun span v _ => ih.2 span v⟩
    constructor
    · intro node
      rw [watch, show (noCallAt k).before (n + 1) node = fun _ => True from rfl,
        show (noCallAt k).after (n + 1) node = fun _ _ => True from rfl, guarded_true]
      refine hp.execOver h (fun _ _ => trivial) (fun _ _ _ _ _ => trivial) fun _ _ _ hbody => ?_
      exact hbody.mapEnd (returned_apply _) (returned_apply _) (fun _ => rfl) fun _ _ _ => trivial
    · intro span v
      rw [watchText, show (noCallAt k).showing (n + 1) v = fun _ => True from rfl, guarded_true]
      exact hp.textOver h.toRules span trivial

/-- A run tells of a call at a place if, and only if, a method is called when so many events have been
told of. -/
theorem tellsCall_iff (limit : Option Nat) (n : Nat) (node : Node) {m : Machine} {k : Nat}
    (hk : ¬ TellsCall k m) :
    TellsCall k (exec limit n node m).2 ↔ ¬ Throughout (noCallAt k) limit n node m := by
  constructor
  · intro htells hall
    obtain ⟨e, he⟩ := exists_error_ne (exec limit n node m).1
    rcases ((places_watch limit k (.error e) n).1 node m).2.2 hk with ⟨-, hnot⟩ | ⟨-, hstop⟩
    · exact hnot htells
    · rw [hall] at hstop
      exact he (hstop e rfl)
  · intro hnot
    refine Classical.byContradiction fun htells => hnot fun stop => ?_
    rcases ((places_watch limit k stop n).1 node m).2.2 hk with ⟨heq, -⟩ | ⟨htells', -⟩
    · exact heq
    · exact absurd htells' htells

end Exec

open Exec

/-- What a run leaves behind and tells of. -/
structure Exec.RunsClean (limit : Option Nat) (n : Nat) (node : Node) (m : Machine) : Prop where
  /-- All that is set up for a call is taken back, and no method is being run that was not before. -/
  unwound : m.Unwound (exec limit n node m).2
  /-- On the way no more methods are run than the limit allows, unless there are more from the start. -/
  within : Throughout (depthWithin limit m.depth) limit n node m
  /-- What is told of calls belongs together like parentheses, no deeper than there is room for. -/
  nested : ∃ w, Event.Nested (room limit n m.depth + 1) w ∧
    (exec limit n node m).2.trace.toList = m.trace.toList ++ w
  /-- A call is told of at just the places where there is one. -/
  places : ∀ j, TellsCall (m.trace.size + j) (exec limit n node m).2 ↔
    ¬ Throughout (noCallAt (m.trace.size + j)) limit n node m

/-- Whatever comes of a run, it takes back what it has set up, and no method is run too deep.  What it tells
of calls belongs together like parentheses: under a limit of `N` with no more than `N + 1` in one another if
none is being run at its start.  Each call tells of its beginning and its end once, also if no method is found
or if it is refused.  So an interpreter that has been used does what a new one does, even if trees have failed
before. -/
theorem runs_clean (limit : Option Nat) (n : Nat) :
    (∀ node m, RunsClean limit n node m) ∧
      (∀ o name args span (m : Machine), ∃ k, CallTold k o name args m
        (callMethod limit (exec limit n) o name args span m).2) ∧
      ∀ roots m, Machine.interpretAll limit n m.renewed roots = Machine.interpretEach limit n m roots := by
  refine ⟨fun node m => ⟨unwound_exec limit n node m, depthWithin_throughout limit n node m, ?_, fun j => ?_⟩,
    fun o name args span m => ?_, fun roots m => Machine.interpretAll_eq_interpretEach limit n roots m⟩
  · obtain ⟨-, hw, -⟩ := (tells_exec limit n m.depth).1 node m rfl
    exact hw
  · refine tellsCall_iff limit n node ?_
    rintro ⟨cls, method, arity, hk⟩
    obtain ⟨hlt, -⟩ := Array.getElem?_eq_some_iff.1 hk
    omega
  · exact ⟨_, (callTold_callMethod (fun _ => (tells_exec limit n (m.depth + 1)).1) o name args span).2⟩

end ClassScript

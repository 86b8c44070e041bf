import ClassScript.Proofs.CallDepth
import Mathlib.Control.Monad.Basic

/-!
# The limit to the depth of calls

A limit that a run does not reach changes nothing, and under a smaller limit a run does less and
fails at the smaller limit.  The two runs are compared step by step: `Limited M a b` says that `a`, of
which the limit is `M`, either does what `b` does or fails at its limit with less printed.  Whether a run
reaches a limit is told by the bodies that are being run, which the depth counts.  Main statement:
`interpret_limit`.
-/

namespace ClassScript

/-- The bytes of one sink are a beginning of those of another. -/
def Sink.Begins (s t : Sink) : Prop := ∃ more, t.written = s.written ++ more

namespace Sink.Begins

theorem refl (s : Sink) : s.Begins s := ⟨.empty, by simp⟩

theorem trans {s t u : Sink} (h : s.Begins t) (h' : t.Begins u) : s.Begins u := by
  obtain ⟨v, hv⟩ := h
  obtain ⟨w, hw⟩ := h'
  exact ⟨v ++ w, by rw [hw, hv, ByteArray.append_assoc]⟩

theorem write (s : Sink) (text : String) : s.Begins (s.write text) := ⟨_, rfl⟩

end Sink.Begins

namespace Exec

variable {α β : Type}

/-- The error that so many methods are being run already. -/
def limitError (limit : Nat) (span : Span) : Signal := .error (.raised (.recursionLimit limit) span)

theorem tryCatch_sink {a : Exec α} {f : Signal → Exec α} (hf : ∀ s m, (f s m).2.sink = m.sink)
    (m : Machine) : ((tryCatch a f : Exec α) m).2.sink = (a m).2.sink := by
  rw [tryCatch_apply]
  cases a m with
  | mk r m' =>
    cases r with
    | ok x => rfl
    | error s => exact hf s m'

/-! ### Two limits -/

/-- Wherever `a` does not fail at the limit `M`, `b` does the same; elsewhere `a` has printed a
beginning of what `b` prints. -/
def Limited (M : Nat) (a b : Exec α) : Prop :=
  ∀ m, m.sink.Begins (b m).2.sink ∧
    (b m = a m ∨ ∃ span, (a m).1 = .error (limitError M span) ∧ (a m).2.sink.Begins (b m).2.sink)

namespace Limited

variable {M : Nat}

theorem of_sink_eq {a : Exec α} (h : ∀ m, (a m).2.sink = m.sink) : Limited M a a :=
  fun m => ⟨by rw [h]; exact .refl _, .inl rfl⟩

theorem bind {a b : Exec α} {f g : α → Exec β} (ha : Limited M a b)
    (hf : ∀ x, Limited M (f x) (g x)) : Limited M (a >>= f) (b >>= g) := by
  intro m
  obtain ⟨hb, hab⟩ := ha m
  -- what `b` and then `g` print goes on from what `b` has printed
  have hgrow : (b m).2.sink.Begins ((b >>= g) m).2.sink := by
    rw [bind_apply]
    cases b m with
    | mk r m' =>
      cases r with
      | ok x => exact (hf x m').1
      | error s => exact .refl _
  refine ⟨hb.trans hgrow, ?_⟩
  obtain heq | ⟨span, hs, hp⟩ := hab
  · rw [bind_apply, bind_apply, heq]
    cases a m with
    | mk r m' =>
      cases r with
      | ok x => exact (hf x m').2
      | error s => exact .inl rfl
  · refine .inr ⟨span, ?_⟩
    rw [bind_apply a]
    cases ham : a m with
    | mk r m' =>
      rw [ham] at hs hp
      cases hs
      exact ⟨rfl, hp.trans hgrow⟩

theorem holding {a b : Exec α} (v : Value) (h : Limited M a b) :
    Limited M (holding v a) (holding v b) := by
  intro m
  obtain ⟨hb, heq | ⟨span, hs, hp⟩⟩ := h { m with held := v :: m.held }
  · refine ⟨hb, .inl ?_⟩
    simp only [Exec.holding]
    rw [heq]
  · exact ⟨hb, .inr ⟨span, hs, hp⟩⟩

theorem inFrame {a b : Exec α} (s : Scope) (h : Limited M a b) :
    Limited M (inFrame s a) (inFrame s b) := by
  intro m
  obtain ⟨hb, heq | ⟨span, hs, hp⟩⟩ :=
    h { m with scope := s, callers := m.scope :: m.callers, depth := m.depth + 1 }
  · refine ⟨hb, .inl ?_⟩
    simp only [Exec.inFrame]
    rw [heq]
  · exact ⟨hb, .inr ⟨span, hs, hp⟩⟩

theorem traced {a b : Exec α} (e : Event) (h : Limited M a b) :
    Limited M (traced e a) (traced e b) := by
  intro m
  obtain ⟨hb, heq | ⟨span, hs, hp⟩⟩ := h { m with trace := m.trace.push e }
  · refine ⟨hb, .inl ?_⟩
    simp only [Exec.traced]
    rw [heq]
  · exact ⟨hb, .inr ⟨span, hs, hp⟩⟩

/-- What is caught is not the error at the limit, and what catches it prints nothing. -/
theorem tryCatch {a b : Exec α} {f : Signal → Exec α} (h : Limited M a b)
    (hf : ∀ span, f (limitError M span) = MonadExcept.throw (limitError M span))
    (hsink : ∀ s m, (f s m).2.sink = m.sink) :
    Limited M (MonadExcept.tryCatch a f) (MonadExcept.tryCatch b f) := by
  intro m
  obtain ⟨hb, hab⟩ := h m
  rw [tryCatch_sink hsink]
  refine ⟨hb, ?_⟩
  obtain heq | ⟨span, hs, hp⟩ := hab
  · rw [tryCatch_apply, tryCatch_apply, heq]
    exact .inl rfl
  · refine .inr ⟨span, ?_, ?_⟩
    · rw [tryCatch_apply]
      cases ham : a m with
      | mk r m' =>
        rw [ham] at hs
        cases hs
        show (f (limitError M span) m').1 = _
        rw [hf]
        rfl
    · rwa [tryCatch_sink hsink]

theorem closed {a b : Exec Value} (h : Limited M a b) : Limited M (closed a) (closed b) :=
  .tryCatch h (fun _ => rfl) fun s m => by cases s <;> rfl

theorem congruence : Congruence fun _ => Limited M where
  pure x := .of_sink_eq fun _ => rfl
  raise span _ := .of_sink_eq fun _ => rfl
  ret v span := .of_sink_eq fun _ => rfl
  bind := .bind
  read := .of_sink_eq fun _ => rfl
  holding := .holding
  traced := .traced
  returned h := .tryCatch (.bind h fun _ => .of_sink_eq fun _ => rfl) (fun _ => rfl)
    fun s m => by cases s <;> rfl
  write text := by
    intro m
    refine ⟨?_, .inl rfl⟩
    rw [write_apply]
    exact .write m.sink text
  tell e := .of_sink_eq fun _ => rfl
  create cls arity := .of_sink_eq fun _ => rfl
  setName x v := .of_sink_eq fun _ => rfl
  setField o f v := .of_sink_eq fun _ => rfl

/-- Guards at the beginning let both pass or none. -/
theorem guarded {a b : Exec α} {p : Machine → Prop} (h : Limited M a b) (stop : Signal) :
    Limited M (guarded p (fun _ _ => True) stop a) (guarded p (fun _ _ => True) stop b) := by
  intro m
  by_cases hm : p m
  · rw [guarded_of_holds hm trivial, guarded_of_holds hm trivial]
    exact h m
  · rw [guarded_of_not_before hm, guarded_of_not_before hm]
    exact ⟨.refl _, .inl rfl⟩

end Limited

theorem checkDepth_none (span : Span) (m : Machine) : checkDepth none span m = (.ok (), m) := rfl

theorem checkDepth_some (n : Nat) (span : Span) (m : Machine) :
    checkDepth (some n) span m =
      if n ≤ m.depth then (.error (limitError n span), m) else (.ok (), m) := by
  show (if n ≤ m.depth then raise (.recursionLimit n) span else (pure () : Exec Unit)) m = _
  split <;> rfl

theorem checkDepth_limited {M : Nat} {limit : Option Nat} (h : ∀ N ∈ limit, M ≤ N) (span : Span) :
    Limited M (checkDepth (some M) span) (checkDepth limit span) := by
  intro m
  have hsink : (checkDepth limit span m).2 = m := by
    cases limit with
    | none => rfl
    | some N =>
      rw [checkDepth_some]
      split <;> rfl
  rw [hsink]
  refine ⟨.refl _, ?_⟩
  rw [checkDepth_some]
  by_cases hd : M ≤ m.depth
  · rw [if_pos hd]
    exact .inr ⟨span, rfl, .refl _⟩
  · rw [if_neg hd]
    cases limit with
    | none => exact .inl rfl
    | some N =>
      have := h N rfl
      rw [checkDepth_some, if_neg (by omega)]
      exact .inl rfl

/-- With a smaller limit a watched run does the same or fails at its limit. -/
theorem watch_limited {M : Nat} {limit : Option Nat} (h : ∀ N ∈ limit, M ≤ N) (p : Machine → Prop)
    (stop : Signal) (n : Nat) :
    (∀ node, Limited M (watch (.entering p) stop (some M) n node) (watch (.entering p) stop limit n node)) ∧
      ∀ span v, Limited M (watchText (.entering p) stop (some M) n span v)
        (watchText (.entering p) stop limit n span v) := by
  induction n with
  | zero => exact ⟨fun _ => .of_sink_eq fun _ => rfl, fun _ _ => .of_sink_eq fun _ => rfl⟩
  | succ n ih =>
    have hs : Related (fun _ => Limited M)
        (watchCall (.entering p) stop (some M) n (watch (.entering p) stop (some M) n))
        (watchCall (.entering p) stop limit n (watch (.entering p) stop limit n))
        (watch (.entering p) stop (some M) n) (watch (.entering p) stop limit n)
        (watchText (.entering p) stop (some M) n) (watchText (.entering p) stop limit n) := by
      refine ⟨fun o name args span => ?_, ih.1, ih.2⟩
      refine Limited.guarded (Limited.congruence.callMethod (fun frame span body => ?_) o name args span) stop
      exact .bind (checkDepth_limited h span) fun _ => .inFrame frame (.closed (ih.1 body))
    exact ⟨fun node => (Limited.congruence.execOver hs node).guarded stop,
      fun span v => (Limited.congruence.textOver hs span v).guarded stop⟩

/-- With a smaller limit a run does the same or fails at its limit. -/
theorem exec_limited {M : Nat} {limit : Option Nat} (h : ∀ N ∈ limit, M ≤ N) (n : Nat) (node : Node) :
    Limited M (exec (some M) n node) (exec limit n node) := by
  have hwatch := (watch_limited h (fun _ => True) .exhausted n).1 node
  rwa [show Watch.entering (fun _ => True) = {} from rfl, (watch_nothing _ _ n).1, (watch_nothing _ _ n).1]
    at hwatch

/-! ### Which limit an error carries -/

/-- Whenever `a` fails at a limit, it is this one. -/
def FailsAt (limit : Option Nat) (a : Exec α) : Prop :=
  ∀ m n span, (a m).1 = .error (limitError n span) → limit = some n

namespace FailsAt

variable {limit : Option Nat}

theorem of_ok {a : Exec α} (h : ∀ m, ∃ x, (a m).1 = .ok x) : FailsAt limit a := by
  intro m n span hm
  obtain ⟨x, hx⟩ := h m
  rw [hx] at hm
  cases hm

theorem bind {a : Exec α} {f : α → Exec β} (ha : FailsAt limit a) (hf : ∀ x, FailsAt limit (f x)) :
    FailsAt limit (a >>= f) := by
  intro m n span hm
  rw [bind_apply] at hm
  have ham := ha m n span
  cases hr : a m with
  | mk r m' =>
    rw [hr] at hm ham
    cases r with
    | ok x => exact hf x m' n span hm
    | error s =>
      cases hm
      exact ham rfl

theorem tryCatch {a : Exec α} {f : Signal → Exec α} (ha : FailsAt limit a)
    (hf : ∀ s m n span, (f s m).1 = .error (limitError n span) → s = limitError n span) :
    FailsAt limit (MonadExcept.tryCatch a f) := by
  intro m n span hm
  rw [tryCatch_apply] at hm
  have ham := ha m n span
  cases hr : a m with
  | mk r m' =>
    rw [hr] at hm ham
    cases r with
    | ok x => cases hm
    | error s =>
      obtain rfl := hf s m' n span hm
      exact ham rfl

theorem closed {a : Exec Value} (ha : FailsAt limit a) : FailsAt limit (closed a) := by
  refine .tryCatch ha fun s m n span hm => ?_
  cases s <;> cases hm
  rfl

theorem congruence : Congruence fun _ a _ => FailsAt limit a where
  pure x := .of_ok fun _ => ⟨x, rfl⟩
  raise span h := by
    intro m n span' hm
    cases hm
    exact absurd rfl (h n)
  ret v span := by
    intro m n span' hm
    cases hm
  bind := .bind
  read := .of_ok fun m => ⟨m, rfl⟩
  holding v h := fun m => h _
  traced e h := fun m => h _
  returned h := by
    refine .tryCatch (.bind h fun _ => .of_ok fun _ => ⟨_, rfl⟩) fun s m n span hm => ?_
    cases s <;> cases hm
    rfl
  write text := by
    intro m n span hm
    rw [write_apply] at hm
    dsimp only at hm
    split at hm <;> cases hm
  tell e := .of_ok fun _ => ⟨_, rfl⟩
  create cls arity := .of_ok fun _ => ⟨_, rfl⟩
  setName x v := .of_ok fun _ => ⟨_, rfl⟩
  setField o f v := .of_ok fun _ => ⟨_, rfl⟩

end FailsAt

/-- A run fails at its own limit only. -/
theorem exec_failsAt (limit : Option Nat) (n : Nat) :
    (∀ node, FailsAt limit (exec limit n node)) ∧ ∀ span v, FailsAt limit (text limit n span v) := by
  induction n with
  | zero => exact ⟨fun _ m n span h => (nomatch h), fun _ _ m n span h => (nomatch h)⟩
  | succ n ih =>
    have hcheck : ∀ span, FailsAt limit (checkDepth limit span) := by
      intro span m k span' hm
      cases limit with
      | none => cases hm
      | some N =>
        rw [checkDepth_some] at hm
        split at hm
        · cases hm
          rfl
        · cases hm
    have hs : Related (fun _ a _ => FailsAt limit a) (callMethod limit (exec limit n))
        (callMethod limit (exec limit n)) (exec limit n) (exec limit n) (text limit n) (text limit n) :=
      ⟨@Congruence.callMethod _ FailsAt.congruence limit limit (exec limit n) (exec limit n)
        fun frame span body => .bind (hcheck span) fun _ m => FailsAt.closed (ih.1 body) _, ih.1, ih.2⟩
    exact ⟨FailsAt.congruence.execOver hs, FailsAt.congruence.textOver hs⟩

/-! ### A limit that is not reached -/

/-- Watches that no more than so many bodies of methods are being run. -/
def activeWatch (N : Nat) : Watch := .entering fun m => m.active ≤ N

/-- Watches for the depth that is compared with a limit. -/
def depthWatch (N : Nat) : Watch := .entering fun m => m.depth ≤ N

/-- What stops a watched run. -/
def Stopped (e : RuntimeError) (s : Signal) : Prop := s = .error e ∨ s = .exhausted

/-- No body is entered too deep while this is watched. -/
theorem watch_too_deep {N : Nat} (e : RuntimeError) (limit : Option Nat) (n : Nat) (node : Node)
    {m : Machine} (h : N < m.depth) :
    ∃ s m', watch (depthWatch N) (.error e) limit n node m = (.error s, m') ∧ Stopped e s := by
  cases n with
  | zero => exact ⟨.exhausted, m, rfl, .inr rfl⟩
  | succ n =>
    refine ⟨.error e, m, ?_, .inl rfl⟩
    unfold watch
    exact guarded_of_not_before (Nat.not_le.2 h)

theorem closed_of_stopped {e : RuntimeError} {s : Signal} (hs : Stopped e s) {a : Exec Value}
    {m m' : Machine} (h : a m = (.error s, m')) : closed a m = (.error s, m') := by
  unfold closed
  rw [tryCatch_apply, h]
  obtain rfl | rfl := hs
  · rfl
  · rfl

/-- A call that may be watched to its end is one that the limit allows. -/
theorem call_of_depth {N : Nat} {e : RuntimeError} {n : Nat} {body : Node} {b : Exec Value}
    (h : Unless (Stopped e) (watch (depthWatch N) (.error e) none n body) b) (frame : Scope)
    (span : Span) :
    Unless (Stopped e)
      (checkDepth none span >>= fun _ =>
        inFrame frame (closed (watch (depthWatch N) (.error e) none n body)))
      (checkDepth (some N) span >>= fun _ => inFrame frame (closed b)) := by
  have hreturn : ∀ v span, ¬ Stopped e (.returning v span) := by simp [Stopped]
  have hfree : ∀ (a : Exec Value) m, (checkDepth none span >>= fun _ => a) m = a m := by
    intro a m
    rw [bind_apply, checkDepth_none]
  intro m hm
  rw [hfree] at hm ⊢
  rw [bind_apply, checkDepth_some]
  by_cases hd : N ≤ m.depth
  · -- the body would be entered too deep
    let inner : Machine :=
      { m with scope := frame, callers := m.scope :: m.callers, depth := m.depth + 1 }
    have hdeep : N < inner.depth := Nat.lt_succ_of_le hd
    obtain ⟨s, m', hw, hs⟩ := watch_too_deep e none n body hdeep
    have hc := closed_of_stopped hs hw
    refine absurd hs (hm s ?_)
    show (closed (watch (depthWatch N) (.error e) none n body) inner).1 = _
    rw [hc]
  · rw [if_neg hd]
    exact Unless.inFrame frame (.closed hreturn h) m hm

/-- If no more than so many methods are ever run, this limit changes nothing. -/
theorem watch_unless (N : Nat) (e : RuntimeError) (n : Nat) :
    (∀ node, Unless (Stopped e) (watch (depthWatch N) (.error e) none n node) (exec (some N) n node)) ∧
      ∀ span v, Unless (Stopped e) (watchText (depthWatch N) (.error e) none n span v)
        (text (some N) n span v) := by
  induction n with
  | zero => exact ⟨fun _ => .throw .exhausted (.inr rfl) _, fun _ _ => .throw .exhausted (.inr rfl) _⟩
  | succ n ih =>
    have h : Congruence fun _ => Unless (Stopped e) := Unless.congruence (by simp [Stopped])
    have hs : Related (fun _ => Unless (Stopped e))
        (watchCall (depthWatch N) (.error e) none n (watch (depthWatch N) (.error e) none n))
        (callMethod (some N) (exec (some N) n)) (watch (depthWatch N) (.error e) none n)
        (exec (some N) n) (watchText (depthWatch N) (.error e) none n) (text (some N) n) := by
      refine ⟨fun o name args span => ?_, ih.1, ih.2⟩
      unfold watchCall
      rw [show guarded ((depthWatch N).calling n o name args span) ((depthWatch N).called n o) _ _ = _
        from guarded_true _ _]
      exact h.callMethod (fun frame span body => call_of_depth (ih.1 body) frame span) o name args span
    constructor
    · intro node m hm
      unfold watch at hm ⊢
      obtain ⟨heq, -⟩ := guarded_of_ne_stop fun hstop => hm _ hstop (.inl rfl)
      rw [heq] at hm ⊢
      exact h.execOver hs node m hm
    · intro span v
      unfold watchText
      rw [show guarded ((depthWatch N).showing (n + 1) v) _ _ _ = _ from guarded_true _ _]
      exact h.textOver hs span v

/-- A run that ends and in which no more than `N` methods are ever run is the same under the limit. -/
theorem exec_of_throughout {N n : Nat} {node : Node} {m : Machine}
    (h : Throughout (depthWatch N) none n node m) (hend : (exec none n node m).1 ≠ .error .exhausted) :
    exec (some N) n node m = exec none n node m := by
  obtain ⟨e, he⟩ := exists_error_ne (exec none n node m).1
  have hrun := h (.error e)
  rw [← hrun]
  refine (watch_unless N e n).1 node m fun s hs hstop => ?_
  rw [hrun] at hs
  obtain rfl | rfl := hstop
  · exact he hs
  · exact hend hs

/-! ### The bodies that are being run -/

section

variable {limit : Option Nat} {N n : Nat} {node : Node} {m : Machine}

/-- The depth counts the bodies that are being run, so the two watches ask for the same. -/
theorem Throughout.depth (h : Throughout (activeWatch N) limit n node m) (hm : m.Counted) :
    Throughout (depthWatch N) limit n node m := by
  intro stop
  have hagrees : (depthWatch N).Agrees Machine.Counted (activeWatch N) :=
    Watch.agrees_entering fun m hm => by rw [hm]
  rw [((unwinds_watch (Machine.framed_counted limit) hagrees stop n).1 node m hm).1]
  exact h stop

/-- A run that does not fail at its limit never has more bodies run, not even without the limit. -/
theorem active_throughout (hm : m.Counted) (hN : m.active ≤ N)
    (hrun : ∀ span, (exec (some N) n node m).1 ≠ .error (limitError N span)) :
    Throughout (activeWatch N) none n node m := by
  intro stop
  have hframed := (Machine.framed_counted (some N)).and (Machine.framed_depthWithin (some N) m.depth)
  have hagrees : (activeWatch N).Agrees (fun k => k.Counted ∧ k.DepthWithin (some N) m.depth) {} := by
    refine Watch.agrees_entering fun k hk => iff_of_true ?_ trivial
    have hdepth := hk.2 N rfl
    rw [hm, Nat.max_eq_right hN, hk.1] at hdepth
    exact hdepth
  have hwatch := (unwinds_exec hframed hagrees stop n node m ⟨hm, depthWithin_self _ m⟩).1
  have hnone : ∀ M ∈ (none : Option Nat), N ≤ M := fun _ h => by cases h
  rcases ((watch_limited hnone (fun m => m.active ≤ N) stop n).1 node m).2 with heq | ⟨span, hs, -⟩
  · rcases (exec_limited hnone n node m).2 with heq' | ⟨span, hs, -⟩
    · exact heq.trans (hwatch.trans heq'.symm)
    · exact absurd hs (hrun span)
  · exact absurd (hwatch ▸ hs) (hrun span)

end

end Exec

/-! ### Whole runs -/

namespace Machine

/-- Whether a run has failed at the limit to the depth of calls. -/
def FailsAtLimit (r : Except RuntimeError Value) : Prop :=
  ∃ n span, r = .error (.raised (.recursionLimit n) span)

variable {m m' : Machine} {root : Node} {fuel : Nat}

theorem interpret_eq_iff {limit : Option Nat} {v : Option (Except RuntimeError Value)} :
    m.interpret limit fuel root = (v, m') ↔
      ∃ r, Exec.exec limit fuel root m = (r, m') ∧ verdict r = v := by
  unfold interpret
  constructor
  · intro h
    cases hr : Exec.exec limit fuel root m with
    | mk r m'' =>
      rw [hr] at h
      cases h
      exact ⟨r, rfl, rfl⟩
  · rintro ⟨r, hr, rfl⟩
    rw [hr]

theorem verdict_limitError {n : Nat} {span : Span} {r : Except Signal Value} :
    verdict r = some (.error (.raised (.recursionLimit n) span)) ↔
      r = .error (Exec.limitError n span) := by
  constructor
  · intro h
    match r, h with
    | .error (.error e), h =>
      cases h
      rfl
  · rintro rfl
    rfl

/-- A run that does not fail at its limit is the same with every greater one, and with none. -/
theorem interpret_of_le {N : Nat} {limit : Option Nat} (hN : ∀ M ∈ limit, N ≤ M)
    {r : Except RuntimeError Value} (h : m.interpret (some N) fuel root = (some r, m'))
    (hr : ¬ FailsAtLimit r) : m.interpret limit fuel root = (some r, m') := by
  obtain ⟨q, hq, hv⟩ := interpret_eq_iff.1 h
  refine interpret_eq_iff.2 ⟨q, ?_, hv⟩
  obtain ⟨-, heq | ⟨span, hs, -⟩⟩ := Exec.exec_limited hN fuel root m
  · rw [heq, hq]
  · rw [hq] at hs
    rw [verdict_limitError.2 hs] at hv
    exact absurd ⟨N, span, (Option.some.inj hv).symm⟩ hr

/-- A run fails at its own limit only. -/
theorem limit_eq_of_fails {limit : Option Nat} {L : Nat} {span : Span}
    (h : m.interpret limit fuel root = (some (.error (.raised (.recursionLimit L) span)), m')) :
    limit = some L := by
  obtain ⟨q, hq, hv⟩ := interpret_eq_iff.1 h
  obtain rfl := verdict_limitError.1 hv
  exact (Exec.exec_failsAt limit fuel).1 root m L span (by rw [hq])

/-- A run that fails at its limit fails at every smaller one, with a beginning of its output. -/
theorem interpret_of_lt {N M L : Nat} (hM : M < N) {span : Span}
    (h : m.interpret (some N) fuel root = (some (.error (.raised (.recursionLimit L) span)), m')) :
    ∃ span' m'', m.interpret (some M) fuel root =
      (some (.error (.raised (.recursionLimit M) span')), m'') ∧ m''.sink.Begins m'.sink := by
  obtain ⟨q, hq, hv⟩ := interpret_eq_iff.1 h
  have hle : ∀ K ∈ some N, M ≤ K := by
    rintro K ⟨⟩
    exact Nat.le_of_lt hM
  obtain ⟨-, heq | ⟨span', hs, hp⟩⟩ := Exec.exec_limited hle fuel root m
  · -- the two limits differ, and each run would carry its own
    have h' := interpret_eq_iff.2 ⟨q, heq.symm.trans hq, hv⟩
    have hNL := limit_eq_of_fails h
    have hML := limit_eq_of_fails h'
    cases hNL
    cases hML
    exact absurd hM (Nat.lt_irrefl _)
  · rw [hq] at hp
    have hrun : Exec.exec (some M) fuel root m =
        ((Exec.exec (some M) fuel root m).1, (Exec.exec (some M) fuel root m).2) := rfl
    exact ⟨span', _, interpret_eq_iff.2 ⟨_, hrun, verdict_limitError.2 hs⟩, hp⟩

end Machine

/-- A limit that a run does not reach changes nothing; a run that fails at its limit fails with this
limit, and at every smaller one with less printed.  If the depth of a machine counts the bodies that are
being run, it does so at every turn, and a run does not reach a limit exactly if no more bodies are ever
being run. -/
theorem interpret_limit (m : Machine) (root : Node) (fuel N : Nat) :
    (∀ r m', m.interpret (some N) fuel root = (some r, m') → ¬ Machine.FailsAtLimit r →
      ∀ limit : Option Nat, (∀ M ∈ limit, N ≤ M) → m.interpret limit fuel root = (some r, m')) ∧
    (∀ L span m', m.interpret (some N) fuel root =
        (some (.error (.raised (.recursionLimit L) span)), m') →
      L = N ∧ ∀ M < N, ∃ span' m'', m.interpret (some M) fuel root =
        (some (.error (.raised (.recursionLimit M) span')), m'') ∧ m''.sink.Begins m'.sink) ∧
    (m.Counted → (∀ limit, Exec.Throughout (.always Machine.Counted) limit fuel root m) ∧
      (∀ r m', m.interpret none fuel root = (some r, m') →
        Exec.Throughout (Exec.activeWatch N) none fuel root m →
          m.interpret (some N) fuel root = (some r, m') ∧ ¬ Machine.FailsAtLimit r) ∧
      (m.active ≤ N → ∀ r m', m.interpret (some N) fuel root = (some r, m') → ¬ Machine.FailsAtLimit r →
        Exec.Throughout (Exec.activeWatch N) none fuel root m)) := by
  refine ⟨?_, ?_, fun hm => ⟨fun limit => ?_, ?_, ?_⟩⟩
  · exact fun r m' h hr limit hN => Machine.interpret_of_le hN h hr
  · intro L span m' h
    refine ⟨?_, fun M hM => Machine.interpret_of_lt hM h⟩
    exact (Option.some.inj (Machine.limit_eq_of_fails h)).symm
  · exact Exec.throughout_of_framed (Machine.framed_counted limit) hm fuel root
  · intro r m' h hw
    obtain ⟨q, hq, hv⟩ := Machine.interpret_eq_iff.1 h
    have hend : (Exec.exec none fuel root m).1 ≠ .error .exhausted := by
      rw [hq]
      rintro rfl
      cases hv
    have hsame := Exec.exec_of_throughout (hw.depth hm) hend
    refine ⟨Machine.interpret_eq_iff.2 ⟨q, hsame.trans hq, hv⟩, ?_⟩
    rintro ⟨L, span, rfl⟩
    cases Machine.limit_eq_of_fails h
  · intro hN r m' h hr
    obtain ⟨q, hq, hv⟩ := Machine.interpret_eq_iff.1 h
    refine Exec.active_throughout hm hN fun span hs => hr ⟨N, span, ?_⟩
    rw [hq] at hs
    exact Option.some.inj (hv.symm.trans (Machine.verdict_limitError.2 hs))

/-- A method that calls another one: two bodies are being run at once, so a limit of two is not reached and one
of one is. -/
theorem interpret_limit_two :
    let inner : Method := ⟨"inner", [], .methodBody {} (.ret {} (.literal {} (.int 0)))⟩
    let outer : Method := ⟨"outer", [], .methodBody {} (.ret {} (.call {} (.lookup {} [selfName]) "inner" []))⟩
    let c : ClassDecl := ⟨⟨0, "C"⟩, none, [outer, inner]⟩
    let root : Node := .block {} [.classDef {} c, .call {} (.new {} c.id []) "outer" []]
    let m := ({} : Machine).load root
    (m.interpret (some 2) 12 root).1 = some (.ok (.int 0)) ∧
      (m.interpret (some 1) 12 root).1 = some (.error (.raised (.recursionLimit 1) {})) ∧
      Exec.Throughout (Exec.activeWatch 2) none 12 root m ∧ ¬ Exec.Throughout (Exec.activeWatch 1) none 12 root m := by
  intro inner outer c root m
  have htwo : (m.interpret (some 2) 12 root).1 = some (.ok (.int 0)) := by
    dsimp only [m, root, c, outer, inner]
    decide +kernel
  have hone : (m.interpret (some 1) 12 root).1 = some (.error (.raised (.recursionLimit 1) {})) := by
    dsimp only [m, root, c, outer, inner]
    decide +kernel
  have hfree : ¬ Machine.FailsAtLimit (.ok (.int 0)) := by
    rintro ⟨L, span, h⟩
    cases h
  obtain ⟨hmore, -, hcount⟩ := interpret_limit m root 12 2
  have hbodies := (hcount rfl).2.2 (Nat.zero_le 2) _ _ (Prod.ext htwo rfl) hfree
  refine ⟨htwo, hone, hbodies, fun hthroughout => ?_⟩
  have hnone := hmore _ _ (Prod.ext htwo rfl) hfree none fun _ h => by cases h
  obtain ⟨-, -, hcount⟩ := interpret_limit m root 12 1
  have hsame := ((hcount rfl).2.1 _ _ hnone hthroughout).1
  rw [hsame] at hone
  cases hone

end ClassScript

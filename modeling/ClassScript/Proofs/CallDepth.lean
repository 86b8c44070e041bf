import ClassScript.Proofs.Calls
import ClassScript.Proofs.Watch
import ClassScript.Run.Program

/-!
# The depth of calls

Whatever comes of an action, it takes back all that it has set up: frames, held values and the count of the
methods that are being run (`Machine.Unwound`).  On its way no more methods are run than the limit allows,
unless there were more from the start.  Main statements: `unwound_exec`, `depthWithin_throughout`, and that an
interpreter which has been used does what a new one does (`interpretAll_eq_interpretEach`).
-/

namespace ClassScript

namespace Machine

/-- A machine behind an action that has taken back what it has set up. -/
structure Unwound (m m' : Machine) : Prop where
  depth : m'.depth = m.depth
  callers : m'.callers = m.callers
  held : m'.held = m.held
  pinned : m'.pinned = m.pinned

theorem Unwound.refl (m : Machine) : m.Unwound m := ⟨rfl, rfl, rfl, rfl⟩

theorem Unwound.trans {m m' m'' : Machine} (h : m.Unwound m') (h' : m'.Unwound m'') : m.Unwound m'' :=
  ⟨h'.depth.trans h.depth, h'.callers.trans h.callers, h'.held.trans h.held, h'.pinned.trans h.pinned⟩

/-- No more methods are being run than the limit allows, or than `d`. -/
def DepthWithin (limit : Option Nat) (d : Nat) (m : Machine) : Prop := ∀ N ∈ limit, m.depth ≤ max d N

/-- The number of bodies of methods that are being run: of each there is a scope that waits for its end. -/
def active (m : Machine) : Nat := m.callers.length

/-- The depth of a machine counts the bodies that are being run. -/
def Counted (m : Machine) : Prop := m.depth = m.active

/-- The machine that goes on in a frame of its own. -/
def entered (m : Machine) (frame : Scope) : Machine :=
  { m with scope := frame, callers := m.scope :: m.callers, depth := m.depth + 1 }

/-- A property of the depth and the callers of machines that they keep where a body is entered. -/
structure Framed (limit : Option Nat) (I : Machine → Prop) : Prop where
  congr : ∀ {m m' : Machine}, I m → m'.depth = m.depth → m'.callers = m.callers → I m'
  enter : ∀ {m : Machine} (frame : Scope), I m → (∀ N ∈ limit, m.depth < N) → I (m.entered frame)

theorem framed_true (limit : Option Nat) : Framed limit fun _ => True := ⟨fun _ _ _ => trivial, fun _ _ _ => trivial⟩

theorem Framed.and {limit : Option Nat} {I J : Machine → Prop} (hI : Framed limit I) (hJ : Framed limit J) :
    Framed limit fun m => I m ∧ J m where
  congr h hd hc := ⟨hI.congr h.1 hd hc, hJ.congr h.2 hd hc⟩
  enter frame h hlt := ⟨hI.enter frame h.1 hlt, hJ.enter frame h.2 hlt⟩

theorem framed_depthWithin (limit : Option Nat) (d : Nat) : Framed limit (DepthWithin limit d) where
  congr h hd _ := fun N hN => hd ▸ h N hN
  enter _ _ hlt := fun N hN => Nat.le_trans (hlt N hN) (Nat.le_max_right d N)

theorem framed_counted (limit : Option Nat) : Framed limit Counted where
  congr {m m'} h hd hc := by
    rw [Counted, active, hd, hc]
    exact h
  enter _ h _ := congrArg (· + 1) h

end Machine

namespace Exec

open Machine

variable {limit : Option Nat} {I : Machine → Prop} {α β : Type}

/-- Where `I` holds, `a` does what `b` does, and `b` takes back what it sets up. -/
def Unwinds (I : Machine → Prop) (a b : Exec α) : Prop := ∀ m, I m → a m = b m ∧ m.Unwound (b m).2

namespace Unwinds

variable {a b : Exec α}

theorem refl (h : ∀ m : Machine, m.Unwound (b m).2) : Unwinds I b b := fun m _ => ⟨rfl, h m⟩

/-- An action that leaves the machine as it is. -/
theorem still (h : ∀ m, (b m).2 = m) : Unwinds I b b :=
  .refl fun m => (h m).symm ▸ .refl m

theorem bind {f g : α → Exec β} (hI : Framed limit I) (h : Unwinds I a b) (hf : ∀ x, Unwinds I (f x) (g x)) :
    Unwinds I (a >>= f) (b >>= g) := by
  intro m hm
  obtain ⟨heq, hend⟩ := h m hm
  rw [bind_apply, bind_apply, heq]
  rcases hr : b m with ⟨s | x, m'⟩
  · rw [hr] at hend
    exact ⟨rfl, hend⟩
  · rw [hr] at hend
    obtain ⟨heq', hend'⟩ := hf x m' (hI.congr hm hend.depth hend.callers)
    exact ⟨heq', hend.trans hend'⟩

/-- What is caught is handled without a change of the machine. -/
theorem tryCatch {f : Signal → Exec α} (h : Unwinds I a b) (hf : ∀ s m, (f s m).2 = m) :
    Unwinds I (MonadExcept.tryCatch a f) (MonadExcept.tryCatch b f) := by
  intro m hm
  obtain ⟨heq, hend⟩ := h m hm
  rw [tryCatch_apply, tryCatch_apply, heq]
  refine ⟨rfl, ?_⟩
  rcases hr : b m with ⟨s | x, m'⟩
  · rw [hr] at hend
    dsimp only
    rw [hf s m']
    exact hend
  · rw [hr] at hend
    exact hend

theorem closed {a b : Exec Value} (h : Unwinds I a b) : Unwinds I (closed a) (closed b) :=
  h.tryCatch fun s _ => by cases s <;> rfl

theorem congruence (hI : Framed limit I) : Congruence fun _ => Unwinds I where
  pure _ := .still fun _ => rfl
  raise _ _ := .still fun _ => rfl
  ret _ _ := .still fun _ => rfl
  bind := .bind hI
  read := .still fun _ => rfl
  holding {_ _ _} v h := by
    intro m hm
    obtain ⟨heq, hend⟩ := h { m with held := v :: m.held } (hI.congr hm rfl rfl)
    rw [holding_apply, holding_apply, heq]
    exact ⟨rfl, hend.depth, hend.callers, rfl, hend.pinned⟩
  traced {_ _ _} e h := by
    intro m hm
    obtain ⟨heq, hend⟩ := h (m.told e) (hI.congr hm rfl rfl)
    rw [traced_apply, traced_apply, heq]
    exact ⟨rfl, hend.depth, hend.callers, hend.held, hend.pinned⟩
  returned h := .tryCatch (.bind hI h fun _ => .still fun _ => rfl) fun s _ => by cases s <;> rfl
  write text := by
    refine .refl fun m => ?_
    rw [write_apply]
    exact ⟨rfl, rfl, rfl, rfl⟩
  tell _ := .refl fun _ => ⟨rfl, rfl, rfl, rfl⟩
  create _ _ := .refl fun _ => ⟨rfl, rfl, rfl, rfl⟩
  setName _ _ := .refl fun _ => ⟨rfl, rfl, rfl, rfl⟩
  setField _ _ _ := .refl fun _ => ⟨rfl, rfl, rfl, rfl⟩

/-- A body that passes the check of its depth is counted while it is run, and no longer. -/
theorem body {a b : Exec Value} (hI : Framed limit I) (h : Unwinds I a b) (frame : Scope) (span : Span) :
    Unwinds I (checkDepth limit span >>= fun _ => inFrame frame a)
      (checkDepth limit span >>= fun _ => inFrame frame b) := by
  intro m hm
  rw [bind_apply, bind_apply]
  by_cases hd : ∀ N ∈ limit, m.depth < N
  · rw [checkDepth_of_lt hd]
    obtain ⟨heq, hend⟩ := h (m.entered frame) (hI.enter frame hm hd)
    have hinner (c : Exec Value) : inFrame frame c m = ((c (m.entered frame)).1,
      { (c (m.entered frame)).2 with
        scope := m.scope, callers := m.callers, depth := (c (m.entered frame)).2.depth - 1 }) := rfl
    show inFrame frame a m = inFrame frame b m ∧ m.Unwound (inFrame frame b m).2
    rw [hinner, hinner, heq]
    refine ⟨rfl, ?_, rfl, hend.held, hend.pinned⟩
    -- the body ends at the depth at which it was entered, one above that of `m`
    exact congrArg (· - 1) hend.depth
  · obtain ⟨e, he⟩ := checkDepth_of_not_lt hd span
    rw [he]
    exact ⟨rfl, .refl m⟩

/-- Guards that ask for the same stop alike. -/
theorem guarded {before before' : Machine → Prop} {after after' : Except Signal α → Machine → Prop}
    (hI : Framed limit I) (h : Unwinds I a b) (hbefore : ∀ m, I m → (before m ↔ before' m))
    (hafter : ∀ r m, I m → (after r m ↔ after' r m)) (stop : Signal) :
    Unwinds I (guarded before after stop a) (guarded before' after' stop b) := by
  intro m hm
  obtain ⟨heq, hend⟩ := h m hm
  unfold Exec.guarded
  rw [heq, propext (hbefore m hm), propext (hafter _ _ (hI.congr hm hend.depth hend.callers))]
  refine ⟨rfl, ?_⟩
  split
  · split
    · exact hend
    · exact hend
  · exact .refl m

end Unwinds

/-- Two watches that ask for the same of machines as `I` says. -/
structure Watch.Agrees (I : Machine → Prop) (w w' : Watch) : Prop where
  before : ∀ n node m, I m → (w.before n node m ↔ w'.before n node m)
  after : ∀ n node r m, I m → (w.after n node r m ↔ w'.after n node r m)
  calling : ∀ n o name args span m, I m → (w.calling n o name args span m ↔ w'.calling n o name args span m)
  called : ∀ n o r m, I m → (w.called n o r m ↔ w'.called n o r m)
  showing : ∀ n v m, I m → (w.showing n v m ↔ w'.showing n v m)

theorem Watch.agrees_entering {p q : Machine → Prop} (h : ∀ m, I m → (p m ↔ q m)) :
    (entering p).Agrees I (entering q) :=
  ⟨fun _ _ => h, fun _ _ _ _ _ => .rfl, fun _ _ _ _ _ _ _ => .rfl, fun _ _ _ _ _ => .rfl, fun _ _ _ _ => .rfl⟩

theorem Watch.agrees_always {p q : Machine → Prop} (h : ∀ m, I m → (p m ↔ q m)) : (always p).Agrees I (always q) :=
  ⟨fun _ _ => h, fun _ _ _ => h, fun _ _ _ _ _ => h, fun _ _ _ => h, fun _ _ => h⟩

/-- Runs that are watched for the same stop alike, and take back what they set up. -/
theorem unwinds_watch (hI : Framed limit I) {w w' : Watch} (hw : w.Agrees I w') (stop : Signal) (n : Nat) :
    (∀ node, Unwinds I (watch w stop limit n node) (watch w' stop limit n node)) ∧
      ∀ span v, Unwinds I (watchText w stop limit n span v) (watchText w' stop limit n span v) := by
  have h := Unwinds.congruence hI
  induction n with
  | zero => exact ⟨fun _ => .still fun _ => rfl, fun _ _ => .still fun _ => rfl⟩
  | succ n ih =>
    have hs : Related (fun _ => Unwinds I) (watchCall w stop limit n (watch w stop limit n))
        (watchCall w' stop limit n (watch w' stop limit n)) (watch w stop limit n) (watch w' stop limit n)
        (watchText w stop limit n) (watchText w' stop limit n) := by
      refine ⟨fun o name args span => ?_, ih.1, ih.2⟩
      refine Unwinds.guarded hI ?_ (hw.calling n o name args span) (hw.called n o) stop
      exact h.callMethod (fun frame span body => (ih.1 body).closed.body hI frame span) o name args span
    constructor
    · exact fun node => (h.execOver hs node).guarded hI (hw.before _ node) (hw.after _ node) stop
    · exact fun span v => (h.textOver hs span v).guarded hI (hw.showing _ v) (fun _ _ _ => .rfl) stop

/-- A run that is watched for what follows from `I` does what the run does, and takes back what it sets up. -/
theorem unwinds_exec (hI : Framed limit I) {w : Watch} (hw : w.Agrees I {}) (stop : Signal) (n : Nat)
    (node : Node) : Unwinds I (watch w stop limit n node) (exec limit n node) := by
  have h := (unwinds_watch hI hw stop n).1 node
  rwa [(watch_nothing stop limit n).1] at h

/-- What is kept where a body is entered holds at every turn of a run. -/
theorem throughout_of_framed (hI : Framed limit I) {m : Machine} (hm : I m) (n : Nat) (node : Node) :
    Throughout (.always I) limit n node m := by
  have hw : (Watch.always I).Agrees I {} := Watch.agrees_always fun _ h => iff_of_true h trivial
  exact fun stop => (unwinds_exec hI hw stop n node m hm).1

/-- A run takes back what it has set up, whatever comes of it. -/
theorem unwound_exec (limit : Option Nat) (n : Nat) (node : Node) (m : Machine) :
    m.Unwound (exec limit n node m).2 := by
  have hw : (Watch.always fun _ => True).Agrees (fun _ => True) {} := Watch.agrees_always fun _ _ => .rfl
  exact (unwinds_exec (framed_true limit) hw .exhausted n node m trivial).2

/-- Watches that not too many methods are being run. -/
abbrev depthWithin (limit : Option Nat) (d : Nat) : Watch := .always fun m => m.DepthWithin limit d

/-- A machine starts within its own depth. -/
theorem depthWithin_self (limit : Option Nat) (m : Machine) : m.DepthWithin limit m.depth :=
  fun N _ => Nat.le_max_left _ N

/-- Throughout a run no more methods are run than the limit allows, or than at its start. -/
theorem depthWithin_throughout (limit : Option Nat) (n : Nat) (node : Node) (m : Machine) :
    Throughout (depthWithin limit m.depth) limit n node m :=
  throughout_of_framed (framed_depthWithin limit m.depth) (depthWithin_self limit m) n node

end Exec

/-! ### Trees one after another -/

namespace Machine

/-- A machine with a new interpreter, which does not run any method yet. -/
def renewed (m : Machine) : Machine := { m with depth := 0 }

/-- What comes of trees that one interpreter carries out one after another: the result of each, and the
machine behind it. -/
def interpretAll (limit : Option Nat) (fuel : Nat) :
    Machine → List Node → List (Option (Except RuntimeError Value) × Machine)
  | _, [] => []
  | m, root :: rest =>
    m.interpret limit fuel root :: interpretAll limit fuel (m.interpret limit fuel root).2 rest

/-- What comes of trees one after another if each has an interpreter of its own. -/
def interpretEach (limit : Option Nat) (fuel : Nat) :
    Machine → List Node → List (Option (Except RuntimeError Value) × Machine)
  | _, [] => []
  | m, root :: rest =>
    m.renewed.interpret limit fuel root ::
      interpretEach limit fuel (m.renewed.interpret limit fuel root).2 rest

theorem renewed_of_depth {m : Machine} (h : m.depth = 0) : m.renewed = m := by
  unfold renewed
  rw [← h]

/-- An interpreter that has been used, even if a tree has failed, does what a new one does. -/
theorem interpretAll_eq_interpretEach (limit : Option Nat) (fuel : Nat) (roots : List Node) (m : Machine) :
    interpretAll limit fuel m.renewed roots = interpretEach limit fuel m roots := by
  induction roots generalizing m with
  | nil => rfl
  | cons root rest ih =>
    have hdepth : (m.renewed.interpret limit fuel root).2.depth = 0 :=
      (Exec.unwound_exec limit fuel root m.renewed).depth
    have hrest := ih (m.renewed.interpret limit fuel root).2
    rw [renewed_of_depth hdepth] at hrest
    rw [interpretAll, interpretEach, hrest]

end Machine

end ClassScript

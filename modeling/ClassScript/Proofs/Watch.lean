import ClassScript.Run.Fuel

/-!
# Watched runs

What holds in all states that a run passes through is told by a run that is watched: it does the same,
but stops with a signal of its own where a node is entered or left, a method is called or has ended, or
a text is asked for, and something is not as it should be.  A run meets what is watched for if watching
it changes nothing, whatever the signal is (`Throughout`).
-/

namespace ClassScript.Exec

/-- What should hold at the turns of a run, with so much fuel. -/
structure Watch where
  /-- When a node is entered. -/
  before : Nat → Node → Machine → Prop := fun _ _ _ => True
  /-- When a node is left. -/
  after : Nat → Node → Except Signal Value → Machine → Prop := fun _ _ _ _ => True
  /-- When a method of an object is called. -/
  calling : Nat → ObjId → String → List Value → Span → Machine → Prop := fun _ _ _ _ _ _ => True
  /-- When a method has ended. -/
  called : Nat → ObjId → Except Signal Value → Machine → Prop := fun _ _ _ _ => True
  /-- When the text of a value is asked for. -/
  showing : Nat → Value → Machine → Prop := fun _ _ _ => True

/-- A watch for machines alone, at all turns of a run. -/
def Watch.always (p : Machine → Prop) : Watch where
  before _ _ m := p m
  after _ _ _ m := p m
  calling _ _ _ _ _ m := p m
  called _ _ _ m := p m
  showing _ _ m := p m

/-- A watch for machines alone, whenever a node is entered. -/
def Watch.entering (p : Machine → Prop) : Watch where
  before _ _ m := p m

section

variable {α : Type}

/-- Does an action, but stops if its machine is not as it should be before or behind it. -/
noncomputable def guarded (before : Machine → Prop) (after : Except Signal α → Machine → Prop)
    (stop : Signal) (act : Exec α) : Exec α := fun m =>
  open Classical in
  if before m then
    if after (act m).1 (act m).2 then act m else (.error stop, (act m).2)
  else
    (.error stop, m)

variable {before : Machine → Prop} {after : Except Signal α → Machine → Prop} {stop : Signal}
  {act : Exec α} {m : Machine}

theorem guarded_of_holds (h : before m) (h' : after (act m).1 (act m).2) :
    guarded before after stop act m = act m := by
  unfold guarded
  rw [if_pos h, if_pos h']

theorem guarded_of_not_before (h : ¬ before m) : guarded before after stop act m = (.error stop, m) := by
  unfold guarded
  rw [if_neg h]

/-- Unless it stops, a guarded action is what it guards. -/
theorem guarded_of_ne_stop (h : (guarded before after stop act m).1 ≠ .error stop) :
    guarded before after stop act m = act m ∧ before m ∧ after (act m).1 (act m).2 := by
  unfold guarded at h ⊢
  split at h
  · rename_i hb
    rw [if_pos hb]
    split at h
    · rename_i ha
      rw [if_pos ha]
      exact ⟨rfl, hb, ha⟩
    · exact absurd rfl h
  · exact absurd rfl h

theorem guarded_true (stop : Signal) (act : Exec α) :
    guarded (fun _ => True) (fun _ _ => True) stop act = act := by
  funext m
  exact guarded_of_holds trivial trivial

end

/-- Calls a method, and watches the call. -/
noncomputable def watchCall (w : Watch) (stop : Signal) (limit : Option Nat) (n : Nat)
    (exec : Node → Exec Value) : Call := fun o name args span =>
  guarded (w.calling n o name args span) (w.called n o) stop (callMethod limit exec o name args span)

mutual

/-- Carries out a node as `exec` does, and watches it and all that it leads to. -/
noncomputable def watch (w : Watch) (stop : Signal) (limit : Option Nat) : Nat → Node → Exec Value
  | 0, _ => throw .exhausted
  | n + 1, node => guarded (w.before (n + 1) node) (w.after (n + 1) node) stop
      (execOver (watchCall w stop limit n (watch w stop limit n)) (watch w stop limit n)
        (watchText w stop limit n) node)

/-- The text of a value, as `text` gives it, with all watched that it leads to. -/
noncomputable def watchText (w : Watch) (stop : Signal) (limit : Option Nat) :
    Nat → Span → Value → Exec String
  | 0, _, _ => throw .exhausted
  | n + 1, span, v => guarded (w.showing (n + 1) v) (fun _ _ => True) stop
      (textOver (watchCall w stop limit n (watch w stop limit n)) (watchText w stop limit n) span v)

end

/-- To watch for nothing changes nothing. -/
theorem watch_nothing (stop : Signal) (limit : Option Nat) (n : Nat) :
    watch {} stop limit n = exec limit n ∧ watchText {} stop limit n = text limit n := by
  induction n with
  | zero => exact ⟨rfl, rfl⟩
  | succ n ih =>
    obtain ⟨hnode, htext⟩ := ih
    have hcall : watchCall {} stop limit n (exec limit n) = callMethod limit (exec limit n) :=
      funext fun _ => funext fun _ => funext fun _ => funext fun _ => guarded_true stop _
    constructor
    · funext node
      unfold watch exec
      rw [hnode, htext, hcall]
      exact guarded_true stop _
    · funext span v
      unfold watchText text
      rw [hnode, htext, hcall]
      exact guarded_true stop _

/-- What `w` watches for holds throughout the run of a node. -/
def Throughout (w : Watch) (limit : Option Nat) (n : Nat) (node : Node) (m : Machine) : Prop :=
  ∀ stop, watch w stop limit n node m = exec limit n node m

/-- Unless it stops, a run that is watched does what the run does. -/
theorem unless_stopped (w : Watch) (stop : RuntimeError) (limit : Option Nat) (n : Nat) :
    (∀ node, Unless (· = .error stop) (watch w (.error stop) limit n node) (exec limit n node)) ∧
      ∀ span v, Unless (· = .error stop) (watchText w (.error stop) limit n span v)
        (text limit n span v) := by
  have h : Congruence fun _ => Unless (· = .error stop) := Unless.congruence fun v span => nofun
  have hguarded {α : Type} {before after} {a b : Exec α} (hab : Unless (· = .error stop) a b) :
      Unless (· = .error stop) (guarded before after (.error stop) a) b := by
    intro m hm
    have heq := (guarded_of_ne_stop fun hs => hm _ hs rfl).1
    rw [heq] at hm ⊢
    exact hab m hm
  induction n with
  | zero => exact ⟨fun _ => .refl _, fun _ _ => .refl _⟩
  | succ n ih =>
    have hs : Related (fun _ => Unless (· = .error stop))
        (watchCall w (.error stop) limit n (watch w (.error stop) limit n))
        (callMethod limit (exec limit n)) (watch w (.error stop) limit n) (exec limit n)
        (watchText w (.error stop) limit n) (text limit n) :=
      ⟨fun o name args span => hguarded (.callMethod (fun _ _ => nofun) limit ih.1 o name args span),
        ih.1, ih.2⟩
    exact ⟨fun node => hguarded (h.execOver hs node), fun span v => hguarded (h.textOver hs span v)⟩

/-- There is an error that a run has not ended with. -/
theorem exists_error_ne {α : Type} (r : Except Signal α) : ∃ e, r ≠ .error (.error e) := by
  by_cases h : r = .error (.error (.output ""))
  · refine ⟨.output "stop", ?_⟩
    rw [h]
    simp
  · exact ⟨.output "", h⟩

/-- What holds throughout a run holds at its beginning and at its end. -/
theorem Throughout.ends {w : Watch} {limit : Option Nat} {n : Nat} {node : Node} {m : Machine}
    (h : Throughout w limit (n + 1) node m) :
    w.before (n + 1) node m ∧
      w.after (n + 1) node (exec limit (n + 1) node m).1 (exec limit (n + 1) node m).2 := by
  obtain ⟨e, he⟩ := exists_error_ne (exec limit (n + 1) node m).1
  have hrun := h (.error e)
  rw [← hrun] at he ⊢
  unfold watch at he ⊢
  obtain ⟨heq, hb, ha⟩ := guarded_of_ne_stop he
  rw [heq]
  exact ⟨hb, ha⟩

end ClassScript.Exec

import ClassScript.Proofs.Calls
import ClassScript.Proofs.Watch
import ClassScript.Run.Logic
import Mathlib.Order.WellFounded

/-!
# Endless texts

Under a limit to the depth of calls a run comes to an end, but for one thing: the method for the text of
an object may give an object with such a method again, whose call is no deeper, and so on.  Runs are
therefore compared with ones that show values in a way of their own (`execWith`), and these end if showing
does: calls are bounded by the limit, and the nodes below a node by its size (`settles_execWith`).  Main
statement: a run ends if it stops at the second method for texts in a row, and it ends anyway unless it
asks for a text whose methods follow one another without end (`ends_but_for_texts`).
-/

namespace ClassScript.Exec

variable {α β : Type}

/-- Carries out a node as `exec` does, but shows values in a way of its own. -/
def execWith (limit : Option Nat) (shown : Call → Span → Value → Exec String) : Nat → Node → Exec Value
  | 0, _ => throw .exhausted
  | n + 1, node => execOver (callMethod limit (execWith limit shown n)) (execWith limit shown n)
      (shown (callMethod limit (execWith limit shown n))) node

/-! ### Runs that end -/

/-- An end with a result as `Q` says, or else with a signal as `S` says. -/
def Closes (S : Signal → Prop) (Q : α → Prop) : Except Signal α → Prop
  | .ok x => Q x
  | .error s => S s

theorem closes_iff {r : Except Signal α} :
    Closes (· ≠ .exhausted) (fun _ => True) r ↔ r ≠ .error .exhausted := by
  rcases r with s | x
  · exact ⟨fun h hr => h (Except.error.inj hr), fun h hs => h (congrArg _ hs)⟩
  · exact ⟨fun _ => nofun, fun _ => trivial⟩

/-- An action that, at depth `d` and with classes `ds`, keeps both and ends with results as `Q` says and
signals as `S` says. -/
def Settles (ds : List ClassDecl) (d : Nat) (S : Signal → Prop) (Q : α → Prop) (a : Exec α) : Prop :=
  ∀ m, m.heap.classes = ds → m.depth = d →
    (a m).2.heap.classes = ds ∧ (a m).2.depth = d ∧ Closes S Q (a m).1

namespace Settles

variable {ds : List ClassDecl} {d : Nat} {S S' : Signal → Prop} {Q Q' : α → Prop}

theorem mono {a : Exec α} (h : Settles ds d S Q a) (hS : ∀ s, S s → S' s) (hQ : ∀ x, Q x → Q' x) :
    Settles ds d S' Q' a := by
  intro m hds hd
  obtain ⟨hds', hd', hend⟩ := h m hds hd
  refine ⟨hds', hd', ?_⟩
  rcases hr : (a m).1 with s | x
  · rw [hr] at hend
    exact hS s hend
  · rw [hr] at hend
    exact hQ x hend

theorem still {a : Exec α} {r : Except Signal α} (h : ∀ m, a m = (r, m)) (hr : Closes S Q r) :
    Settles ds d S Q a := by
  intro m hds hd
  rw [h]
  exact ⟨hds, hd, hr⟩

theorem bind {a : Exec α} {f : α → Exec β} {R : β → Prop} (h : Settles ds d S Q a)
    (hf : ∀ x, Q x → Settles ds d S R (f x)) : Settles ds d S R (a >>= f) := by
  intro m hds hd
  obtain ⟨hds', hd', hend⟩ := h m hds hd
  rw [bind_apply]
  rcases hr : a m with ⟨s | x, m'⟩
  · rw [hr] at hds' hd' hend
    exact ⟨hds', hd', hend⟩
  · rw [hr] at hds' hd' hend
    exact hf x hend m' hds' hd'

theorem holding {a : Exec α} (v : Value) (h : Settles ds d S Q a) : Settles ds d S Q (holding v a) :=
  fun m => h { m with held := v :: m.held }

theorem guarded {a : Exec α} {before : Machine → Prop} {after : Except Signal α → Machine → Prop}
    {stop : Signal} (h : Settles ds d S Q a) (hstop : S stop) :
    Settles ds d S Q (guarded before after stop a) := by
  intro m hds hd
  obtain ⟨hds', hd', hend⟩ := h m hds hd
  unfold Exec.guarded
  split
  · split
    · exact ⟨hds', hd', hend⟩
    · exact ⟨hds', hd', hstop⟩
  · exact ⟨hds, hd, hstop⟩

/-- To settle is a logic of actions, if only the end of the fuel is excluded. -/
theorem logic (ds : List ClassDecl) (d : Nat) (hS : ∀ s, s ≠ .exhausted → S s) :
    Logic (fun _ => True) (fun _ _ => True) fun _ Q a _ => Settles ds d S Q a where
  plain _ _ := trivial
  cls _ := trivial
  mono h _ hQ := h.mono (fun _ hs => hs) hQ
  pure hx := .still (fun _ => rfl) hx
  raise _ _ := .still (fun _ => rfl) (hS _ nofun)
  ret _ _ := .still (fun _ => rfl) (hS _ nofun)
  bind := .bind
  read _ _ h := fun m => h m m
  holding _ h := h.holding _
  object {_ a} span _ := by
    intro m hds hd
    have hid {o : ObjId} (ho : (object a span m).1 = .ok o) : a.id = o := id_of_object ho
    rw [object_apply] at hid ⊢
    cases hr : m.resolve a with
    | none => exact ⟨hds, hd, hS _ nofun⟩
    | some o =>
      rw [hr] at hid
      exact ⟨hds, hd, hid rfl, trivial⟩
  readPath path span := by
    intro m hds hd
    rw [readPath_apply]
    cases m.read path with
    | error name => exact ⟨hds, hd, hS _ nofun⟩
    | ok v => exact ⟨hds, hd, trivial⟩
  write text := by
    intro m hds hd
    rw [write_apply]
    refine ⟨hds, hd, ?_⟩
    dsimp only
    split
    · trivial
    · exact hS _ nofun
  tell _ := fun _ hds hd => ⟨hds, hd, trivial⟩
  create _ _ := fun _ hds hd => ⟨hds, hd, trivial⟩
  setName _ _ _ := fun _ hds hd => ⟨hds, hd, trivial⟩
  setField _ _ _ _ := fun _ hds hd => ⟨hds, hd, trivial⟩

theorem returned {a : Exec Value} (hS : ∀ s, s ≠ .exhausted → S s)
    (h : Settles ds d S (fun _ => True) a) : Settles ds d S (fun _ => True) (returned a) := by
  intro m hds hd
  obtain ⟨hds', hd', hend⟩ := h m hds hd
  rw [returned_apply]
  refine ⟨hds', hd', ?_⟩
  rcases hr : (a m).1 with s | v
  · rw [hr] at hend
    cases s with
    | returning v span => trivial
    | error e => exact hS _ nofun
    | exhausted => exact hend
  · trivial

/-- A call settles if the bodies of methods do one call deeper, as far as there may be one. -/
theorem callMethod {N : Nat} {e : Node → Exec Value} (hS : ∀ s, s ≠ .exhausted → S s)
    (hbody : d < N → ∀ c ∈ ds, ∀ method ∈ c.methods,
      Settles ds (d + 1) S (fun _ => True) (e method.body))
    (o : ObjId) (name : String) (args : List Value) (span : Span) :
    Settles ds d S (fun _ => True) (callMethod (some N) e o name args span) := by
  intro m hds hd
  by_cases hN : d < N
  · rcases callMethod_cases (some N) e o name args span m with ⟨method, hf, hcall⟩ | ⟨e', t, hcall⟩
    · obtain ⟨c, hc, hmethod⟩ := Heap.exists_of_findMethod? hf
      have hrun := hbody hN c (hds ▸ hc) method hmethod (m.inBody o name args method) hds
        (congrArg (· + 1) hd)
      obtain ⟨hds', hd', hend⟩ := hrun
      rw [hcall]
      refine ⟨hds', congrArg (· - 1) hd', ?_⟩
      rcases hr : (e method.body (m.inBody o name args method)).1 with s | v
      · rw [hr] at hend
        cases s with
        | returning v span => exact hS _ nofun
        | error e => exact hS _ nofun
        | exhausted => exact hend
      · trivial
    · rw [hcall]
      exact ⟨hds, hd, hS _ nofun⟩
  · have hdeep : ¬ ∀ n ∈ some N, m.depth < n := fun h => hN (hd ▸ h N rfl)
    have hcall : ∃ e' t, Exec.callMethod (some N) e o name args span m =
        (.error (.error e'), { m with trace := t }) := callMethod_of_not_lt hdeep
    obtain ⟨e', t, hcall⟩ := hcall
    rw [hcall]
    exact ⟨hds, hd, hS _ nofun⟩

/-- The text of a value settles if the call of a method for it does, and what shows its result. -/
theorem textOver {call : Call} {text : Span → Value → Exec String} (hS : ∀ s, s ≠ .exhausted → S s)
    (hcall : ∀ o name args span, Settles ds d S (fun _ => True) (call o name args span))
    (htext : ∀ span v, Settles ds d S (fun _ => True) (text span v)) (span : Span) (v : Value) :
    Settles ds d S (fun _ => True) (textOver call text span v) := by
  have hp : Pieces (fun _ => True) (fun _ => False) (fun _ Q a _ => Settles ds d S Q a) [] call call
      (fun _ => throw .exhausted) (fun _ => throw .exhausted) text text :=
    ⟨fun a name args span _ _ _ => hcall a.id name args span, fun _ => False.elim,
      fun span v _ => htext span v⟩
  exact hp.textOver (logic ds d hS).toRules span trivial

end Settles

/-- The bodies of methods are smaller than the list of their classes. -/
theorem sizeOf_body_lt {ds : List ClassDecl} {c : ClassDecl} (hc : c ∈ ds) {method : Method}
    (hmethod : method ∈ c.methods) : sizeOf method.body < sizeOf ds := by
  have hlist := List.sizeOf_lt_of_mem hc
  have hclass := List.sizeOf_lt_of_mem hmethod
  obtain ⟨id, parent, methods⟩ := c
  obtain ⟨name, params, body⟩ := method
  simp only [ClassOf.mk.sizeOf_spec, MethodOf.mk.sizeOf_spec] at hlist hclass ⊢
  omega

/-- A way to show values that settles wherever calls do. -/
def Shows (limit : Option Nat) (ds : List ClassDecl) (shown : Call → Span → Value → Exec String) : Prop :=
  ∀ n d, (∀ o name args span, Settles ds d (· ≠ .exhausted) (fun _ => True)
      (callMethod limit (execWith limit shown n) o name args span)) →
    ∀ span v, Settles ds d (· ≠ .exhausted) (fun _ => True)
      (shown (callMethod limit (execWith limit shown n)) span v)

/-- Under a limit every run ends if showing values does: there are only so many calls in one another, and
in between the nodes become smaller. -/
theorem settles_execWith {N : Nat} {ds : List ClassDecl} {shown : Call → Span → Value → Exec String}
    (hshown : Shows (some N) ds shown) {n d : Nat} {node : Node}
    (hn : sizeOf node + (N - d) * sizeOf ds ≤ n) :
    Settles ds d (· ≠ .exhausted) (fun _ => True) (execWith (some N) shown n node) := by
  -- a call takes one from the limit, which pays for the size of any body; a part is smaller than its node
  induction n generalizing d node with
  | zero => cases node <;> simp at hn
  | succ n ih =>
    have hcall (o : ObjId) (name : String) (args : List Value) (span : Span) :
        Settles ds d (· ≠ .exhausted) (fun _ => True)
          (callMethod (some N) (execWith (some N) shown n) o name args span) := by
      refine .callMethod (fun _ hs => hs) (fun hN c hc method hmethod => ih ?_) o name args span
      have hsize := sizeOf_body_lt hc hmethod
      have hdepth : N - d = N - (d + 1) + 1 := by omega
      rw [hdepth, Nat.succ_mul] at hn
      omega
    have hp : Pieces (fun _ => True) (· ∈ node.parts)
        (fun _ Q a _ => Settles ds d (· ≠ .exhausted) Q a) []
        (callMethod (some N) (execWith (some N) shown n)) (callMethod (some N) (execWith (some N) shown n))
        (execWith (some N) shown n) (execWith (some N) shown n)
        (shown (callMethod (some N) (execWith (some N) shown n)))
        (shown (callMethod (some N) (execWith (some N) shown n))) := by
      refine ⟨fun a name args span _ _ _ => hcall a.id name args span, fun c hc => ih ?_,
        fun span v _ => hshown n d hcall span v⟩
      have hsize := Node.sizeOf_lt_of_mem_children (Node.mem_children_of_mem_parts hc)
      omega
    exact hp.execOver (Settles.logic ds d fun _ hs => hs) (fun _ hc => hc) (fun _ _ _ _ _ => trivial)
      fun _ _ _ h => h.returned fun _ hs => hs

/-! ### One method for texts after another -/

/-- The text of a value where no method for texts may follow another: it fails with `stop` instead. -/
def lastText (stop : RuntimeError) (call : Call) : Span → Value → Exec String :=
  textOver call (textOver (fun _ _ _ _ => throw (.error stop)) fun _ _ => throw (.error stop))

/-- Carries out a node, but stops with an error where what a method for texts has given is an object with
such a method. -/
def curtailed (limit : Option Nat) (stop : RuntimeError) : Nat → Node → Exec Value :=
  execWith limit (lastText stop)

theorem shows_lastText (limit : Option Nat) (ds : List ClassDecl) (stop : RuntimeError) :
    Shows limit ds (lastText stop) := by
  intro n d hcall span v
  refine .textOver (fun _ hs => hs) hcall (fun span v => ?_) span v
  refine .textOver (fun _ hs => hs) (fun _ _ _ _ => ?_) (fun _ _ => ?_) span v
  · exact .still (fun _ => rfl) nofun
  · exact .still (fun _ => rfl) nofun

theorem unless_curtailed_succ (limit : Option Nat) (stop : RuntimeError) (n : Nat) (node : Node) :
    Unless (· = .exhausted) (curtailed limit stop n node) (curtailed limit stop (n + 1) node) := by
  have h : Congruence fun _ => Unless (· = .exhausted) := Unless.congruence fun v span => nofun
  induction n generalizing node with
  | zero => exact .throw .exhausted (by rfl) _
  | succ n ih =>
    have hcall := Unless.callMethod (fun _ _ => nofun) limit ih
    exact h.execOver ⟨hcall, ih, h.shown hcall fun _ _ => .refl _⟩ node

theorem curtailed_of_le (limit : Option Nat) (stop : RuntimeError) {n k : Nat} (h : n ≤ k) (node : Node) :
    Below (curtailed limit stop n node) (curtailed limit stop k node) := by
  induction h with
  | refl => exact fun _ _ => rfl
  | step _ ih => exact ih.trans (below_iff_unless.2 (unless_curtailed_succ limit stop _ node))

/-- A run that does not stop at the second method for texts in a row is the run itself, which needs more
fuel since texts use it too. -/
theorem unless_curtailed (limit : Option Nat) (stop : RuntimeError) {n k : Nat} (hk : 2 * n + 1 ≤ k)
    (node : Node) :
    Unless (fun s => s = .exhausted ∨ s = .error stop) (curtailed limit stop n node) (exec limit k node) := by
  have h : Congruence fun _ => Unless fun s => s = .exhausted ∨ s = .error stop :=
    Unless.congruence fun v span => by simp
  induction n generalizing k node with
  | zero => exact .throw .exhausted (.inl rfl) _
  | succ n ih =>
    -- a text shown at this step uses two more of the fuel for the methods that may follow one another
    obtain ⟨k, rfl⟩ := Nat.exists_eq_add_of_le' (show 3 ≤ k by omega)
    have hcall (j : Nat) (hj : 2 * n + 1 ≤ j) (o name args span) :
        Unless (fun s => s = .exhausted ∨ s = .error stop)
          (callMethod limit (curtailed limit stop n) o name args span)
          (callMethod limit (exec limit j) o name args span) :=
      .callMethod (by simp) limit (fun node => ih hj node) o name args span
    refine h.execOver ⟨hcall (k + 2) (by omega), fun node => ih (by omega) node, ?_⟩ node
    refine h.shown (hcall (k + 1) (by omega)) (h.shown (fun _ _ _ _ => ?_) fun _ _ => ?_)
    · exact .throw _ (.inr rfl) _
    · exact .throw _ (.inr rfl) _

/-! ### Chains -/

/-- The text of a value is left to a method: what it gives, in the machine behind the call, comes next. -/
def Defers (limit : Option Nat) (span : Span) (x y : Value × Machine) : Prop :=
  ∃ a o n, x.1 = .obj a ∧ x.2.resolve a = some o ∧ x.2.heap.hasMethod o strName 0 = true ∧
    callMethod limit (exec limit n) o strName [] span { x.2 with held := .obj (.owned o) :: x.2.held } =
      (.ok y.1, y.2)

/-- Methods for the text of a value follow one another without end, each called on what the one before it
has given. -/
def EndlessText (limit : Option Nat) (v : Value) (m : Machine) : Prop :=
  ∃ span, ∃ chain : Nat → Value × Machine, chain 0 = (v, m) ∧
    ∀ i, Defers limit span (chain i) (chain (i + 1))

/-- Two amounts of fuel that a call does not use up make no difference to it. -/
theorem callMethod_congr (limit : Option Nat) {n k : Nat} {o : ObjId} {name : String} {args : List Value}
    {span : Span} {m : Machine} (hn : (callMethod limit (exec limit n) o name args span m).1 ≠ .error .exhausted)
    (hk : (callMethod limit (exec limit k) o name args span m).1 ≠ .error .exhausted) :
    callMethod limit (exec limit n) o name args span m = callMethod limit (exec limit k) o name args span m := by
  have hmax {j : Nat} (hj : j ≤ max n k) : Below (callMethod limit (exec limit j) o name args span)
      (callMethod limit (exec limit (max n k)) o name args span) :=
    below_iff_unless.2 <| Unless.callMethod (fun _ _ => nofun) limit
      (fun node => below_iff_unless.1 (exec_of_le limit hj node)) o name args span
  rw [← hmax (Nat.le_max_left n k) m hn, hmax (Nat.le_max_right n k) m hk]

/-- A text whose methods follow one another without end is never found. -/
theorem text_of_endless {limit : Option Nat} {v : Value} {m : Machine} (h : EndlessText limit v m) :
    ∃ span, ∀ n, (text limit n span v m).1 = .error .exhausted := by
  obtain ⟨span, chain, h0, hchain⟩ := h
  suffices hall : ∀ n i, (text limit n span (chain i).1 (chain i).2).1 = .error .exhausted by
    refine ⟨span, fun n => ?_⟩
    have hn := hall n 0
    rwa [h0] at hn
  intro n
  induction n with
  | zero => exact fun _ => rfl
  | succ n ih =>
    intro i
    obtain ⟨a, o, k, hv, ho, hmethod, hcall⟩ := hchain i
    rw [text, hv, textOver_of_method ho hmethod, holding_apply, bind_apply]
    by_cases hn : (callMethod limit (exec limit n) o strName [] span
        { (chain i).2 with held := .obj (.owned o) :: (chain i).2.held }).1 = .error .exhausted
    · rcases hr : callMethod limit (exec limit n) o strName [] span
        { (chain i).2 with held := .obj (.owned o) :: (chain i).2.held } with ⟨r, m'⟩
      rw [hr] at hn
      cases hn
      rfl
    · rw [callMethod_congr limit hn (by rw [hcall]; exact nofun), hcall]
      exact ih (i + 1)

/-- Looks out for texts whose methods follow one another without end. -/
def chainWatch (limit : Option Nat) : Watch where
  showing _ v m := ¬ EndlessText limit v m

/-- The text of a value by at most so many methods one after another; it stops where they are endless. -/
noncomputable def chained (limit : Option Nat) (stop : Signal) (call : Call) :
    Nat → Span → Value → Exec String
  | 0, _, _ => throw .exhausted
  | k + 1, span, v => guarded (fun m => ¬ EndlessText limit v m) (fun _ _ => True) stop
      (textOver call (chained limit stop call k) span v)

/-- The text of a value by as many methods one after another as it takes; it stops where they are
endless. -/
noncomputable def finalText (limit : Option Nat) (stop : Signal) (call : Call) (span : Span) (v : Value) :
    Exec String := fun m =>
  open Classical in
  if h : ∃ k, (chained limit stop call k span v m).1 ≠ .error .exhausted then
    chained limit stop call h.choose span v m
  else
    (.error .exhausted, m)

/-- Carries out a node with the texts of values by whole chains of methods; it stops where one is
endless. -/
noncomputable def wholeTexts (limit : Option Nat) (stop : Signal) : Nat → Node → Exec Value :=
  execWith limit (finalText limit stop)

section

variable {limit : Option Nat} {stop : Signal} {call : Call} {span : Span} {v : Value} {m : Machine}

theorem chained_of_endless (h : EndlessText limit v m) (k : Nat) :
    chained limit stop call (k + 1) span v m = (.error stop, m) := by
  rw [chained, guarded_of_not_before (not_not.2 h)]

theorem chained_of_not_endless (h : ¬ EndlessText limit v m) (k : Nat) :
    chained limit stop call (k + 1) span v m = textOver call (chained limit stop call k) span v m := by
  rw [chained, guarded_of_holds h trivial]

theorem finalText_of_exists (h : ∃ k, (chained limit stop call k span v m).1 ≠ .error .exhausted) :
    ∃ k, (chained limit stop call k span v m).1 ≠ .error .exhausted ∧
      finalText limit stop call span v m = chained limit stop call k span v m := by
  refine ⟨h.choose, h.choose_spec, ?_⟩
  rw [finalText, dif_pos h]

theorem finalText_of_not_exists (h : ¬ ∃ k, (chained limit stop call k span v m).1 ≠ .error .exhausted) :
    finalText limit stop call span v m = (.error .exhausted, m) := by
  rw [finalText, dif_neg h]

end

/-! ### The trace as a clock -/

/-- As long as no more than `K` events have been told of, and unless `a` runs out of fuel, `b` does what
`a` does; and `a` takes no event back. -/
def UpTo (K : Nat) (a b : Exec α) : Prop :=
  ∀ m, m.trace.size ≤ (a m).2.trace.size ∧
    ((a m).1 ≠ .error .exhausted → (a m).2.trace.size ≤ K → b m = a m)

namespace UpTo

variable {K : Nat} {a b : Exec α}

theorem left (h : UpTo K a b) : UpTo K a a := fun m => ⟨(h m).1, fun _ _ => rfl⟩

theorem refl (h : ∀ m, m.trace.size ≤ (a m).2.trace.size) : UpTo K a a := fun m => ⟨h m, fun _ _ => rfl⟩

theorem still (h : ∀ m, (a m).2 = m) : UpTo K a a := .refl fun m => by rw [h]

theorem exhausted (b : Exec α) : UpTo K (throw .exhausted) b :=
  fun _ => ⟨Nat.le_refl _, fun h => absurd rfl h⟩

theorem bind {f g : α → Exec β} (h : UpTo K a b) (hf : ∀ x, UpTo K (f x) (g x)) :
    UpTo K (a >>= f) (b >>= g) := by
  intro m
  obtain ⟨hgrow, heq⟩ := h m
  rw [bind_apply, bind_apply]
  rcases hr : a m with ⟨s | x, m'⟩
  · rw [hr] at hgrow heq
    refine ⟨hgrow, fun hs hK => ?_⟩
    rw [heq (fun he => hs (congrArg _ (Except.error.inj he))) hK]
  · rw [hr] at hgrow heq
    obtain ⟨hgrow', heq'⟩ := hf x m'
    refine ⟨Nat.le_trans hgrow hgrow', fun hs hK => ?_⟩
    rw [heq nofun (Nat.le_trans hgrow' hK)]
    exact heq' hs hK

theorem holding (v : Value) (h : UpTo K a b) : UpTo K (holding v a) (holding v b) := by
  intro m
  obtain ⟨hgrow, heq⟩ := h { m with held := v :: m.held }
  refine ⟨hgrow, fun hs hK => ?_⟩
  rw [holding_apply, holding_apply, heq hs hK]

theorem inFrame (s : Scope) (h : UpTo K a b) : UpTo K (inFrame s a) (inFrame s b) := by
  intro m
  obtain ⟨hgrow, heq⟩ := h { m with scope := s, callers := m.scope :: m.callers, depth := m.depth + 1 }
  refine ⟨hgrow, fun hs hK => ?_⟩
  simp only [Exec.inFrame] at hs hK ⊢
  rw [heq hs hK]

theorem traced (e : Event) (h : UpTo K a b) : UpTo K (traced e a) (traced e b) := by
  intro m
  obtain ⟨hgrow, heq⟩ := h (m.told e)
  rw [traced_apply, traced_apply]
  simp only [Machine.told, Array.size_push] at hgrow heq ⊢
  refine ⟨by omega, fun hs hK => ?_⟩
  rw [heq hs (by omega)]

/-- What is told of takes up two events at least. -/
theorem size_traced (h : UpTo K a b) (e : Event) (m : Machine) :
    m.trace.size < (Exec.traced e a m).2.trace.size := by
  have hgrow := (h (m.told e)).1
  rw [traced_apply]
  simp only [Machine.told, Array.size_push] at hgrow ⊢
  omega

theorem of_apply {a b c d : Exec Value} {f : Except Signal Value → Except Signal Value}
    (hf : f (.error .exhausted) = .error .exhausted) (hc : ∀ m, c m = (f (a m).1, (a m).2))
    (hd : ∀ m, d m = (f (b m).1, (b m).2)) (h : UpTo K a b) : UpTo K c d := by
  intro m
  obtain ⟨hgrow, heq⟩ := h m
  rw [hc, hd]
  refine ⟨hgrow, fun hs hK => ?_⟩
  rw [heq (fun he => hs (by rw [he, hf])) hK]

theorem tell (e : Event) : UpTo K (tell e) (tell e) := by
  refine .refl fun m => ?_
  show m.trace.size ≤ (m.trace.push e).size
  rw [Array.size_push]
  exact Nat.le_succ _

theorem congruence (K : Nat) : Congruence fun _ => UpTo K where
  pure _ := .still fun _ => rfl
  raise _ _ := .still fun _ => rfl
  ret _ _ := .still fun _ => rfl
  bind := .bind
  read := .still fun _ => rfl
  holding := .holding
  traced := .traced
  returned h := .of_apply rfl (returned_apply _) (returned_apply _) h
  write text := .refl fun m => by rw [write_apply]
  tell := .tell
  create cls arity := .bind (.refl fun _ => Nat.le_refl _) fun o => .bind (.tell _) fun _ => .still fun _ => rfl
  setName _ _ := .refl fun _ => Nat.le_refl _
  setField _ _ _ := .refl fun _ => Nat.le_refl _

theorem guarded {before : Machine → Prop} {after : Except Signal α → Machine → Prop} {stop : Signal}
    (h : UpTo K a b) : UpTo K (guarded before after stop a) (guarded before after stop a) := by
  refine .refl fun m => ?_
  unfold Exec.guarded
  split
  · split
    · exact (h m).1
    · exact (h m).1
  · exact Nat.le_refl _

/-- What a call does to a method is told of, and does as much as its body. -/
theorem callMethod (limit : Option Nat) {e e' : Node → Exec Value} (he : ∀ n, UpTo K (e n) (e' n))
    (o : ObjId) (name : String) (args : List Value) (span : Span) :
    UpTo K (callMethod limit e o name args span) (callMethod limit e' o name args span) ∧
      ∀ m, m.trace.size < (callMethod limit e o name args span m).2.trace.size := by
  have hcheck : UpTo K (checkDepth limit span) (checkDepth limit span) := by
    refine .still fun m => ?_
    by_cases hd : ∀ n ∈ limit, m.depth < n
    · rw [checkDepth_of_lt hd]
    · obtain ⟨e', h⟩ := checkDepth_of_not_lt hd span
      rw [h]
  have hmissing (fault : RuntimeFault) : UpTo K (raise fault span : Exec Value) (raise fault span) :=
    .still fun _ => rfl
  have hfound (method : Method) := hcheck.bind fun _ =>
    UpTo.inFrame (.frame o method.params args) (.of_apply rfl (closed_apply _) (closed_apply _) (he method.body))
  constructor
  · intro m
    rw [callMethod_apply, callMethod_apply]
    cases m.target? o name args with
    | none => exact (hmissing _).traced _ m
    | some method => exact (hfound method).traced _ m
  · intro m
    rw [callMethod_apply]
    cases m.target? o name args with
    | none => exact (hmissing _).size_traced _ m
    | some method => exact (hfound method).size_traced _ m

theorem chained (limit : Option Nat) (stop : Signal) {call : Call}
    (hcall : ∀ o name args span, UpTo K (call o name args span) (call o name args span)) (k : Nat)
    (span : Span) (v : Value) :
    UpTo K (chained limit stop call k span v) (chained limit stop call k span v) := by
  induction k generalizing span v with
  | zero => exact .exhausted _
  | succ k ih => exact ((congruence K).shown hcall ih span v).guarded

end UpTo

/-! ### Runs with whole chains -/

section

variable {limit : Option Nat} {stop : Signal} {K : Nat}

theorem wholeTexts_succ (n : Nat) (node : Node) :
    wholeTexts limit stop (n + 1) node = execOver (callMethod limit (wholeTexts limit stop n))
      (wholeTexts limit stop n) (finalText limit stop (callMethod limit (wholeTexts limit stop n))) node :=
  rfl

theorem watchCall_chainWatch (n : Nat) (e : Node → Exec Value) :
    watchCall (chainWatch limit) stop limit n e = callMethod limit e := by
  funext o name args span
  exact guarded_true stop _

theorem watch_chainWatch_succ (n : Nat) (node : Node) :
    watch (chainWatch limit) stop limit (n + 1) node =
      execOver (callMethod limit (watch (chainWatch limit) stop limit n))
        (watch (chainWatch limit) stop limit n) (watchText (chainWatch limit) stop limit n) node := by
  rw [watch, watchCall_chainWatch]
  exact guarded_true stop _

theorem watchText_chainWatch_succ (n : Nat) (span : Span) (v : Value) :
    watchText (chainWatch limit) stop limit (n + 1) span v =
      guarded (fun m => ¬ EndlessText limit v m) (fun _ _ => True) stop
        (textOver (callMethod limit (watch (chainWatch limit) stop limit n))
          (watchText (chainWatch limit) stop limit n) span v) := by
  rw [watchText, watchCall_chainWatch]
  rfl

/-- A chain of methods for texts takes no more fuel than there are events to tell of: every method in it is
told of. -/
theorem watchText_of_chained {e : Node → Exec Value} {F : Nat}
    (he : ∀ k ≥ F, ∀ node, UpTo K (e node) (watch (chainWatch limit) stop limit k node)) {j : Nat} (hj : F ≤ j)
    {L k : Nat} {span : Span} {v : Value} {m : Machine} (hL : K < m.trace.size + L)
    (hk : (chained limit stop (callMethod limit e) k span v m).1 ≠ .error .exhausted)
    (hK : (chained limit stop (callMethod limit e) k span v m).2.trace.size ≤ K) :
    watchText (chainWatch limit) stop limit (j + L) span v m =
      chained limit stop (callMethod limit e) k span v m := by
  have hcall (o : ObjId) (name : String) (args : List Value) (span : Span) :=
    UpTo.callMethod limit (he F (Nat.le_refl F)) o name args span
  have hgrow (k : Nat) (span : Span) (v : Value) :=
    UpTo.chained limit stop (fun o name args span => (hcall o name args span).1.left) k span v
  -- `L` is what is left of the events up to `K`: every link of the chain tells of one at least
  induction L generalizing k v m with
  | zero =>
    have hsize := (hgrow k span v m).1
    omega
  | succ L ih =>
    cases k with
    | zero => exact absurd rfl hk
    | succ k =>
      rw [← Nat.add_assoc, watchText_chainWatch_succ]
      by_cases hend : EndlessText limit v m
      · rw [chained_of_endless hend, guarded_of_not_before (not_not.2 hend)]
      rw [chained_of_not_endless hend] at hk hK
      rw [chained_of_not_endless hend, guarded_of_holds hend trivial]
      rcases textOver_cases span v m with ⟨r, -, hr⟩ | ⟨a, o, rfl, -, -, hlink⟩
      · rw [hr, hr]
      · rw [hlink] at hk hK
        rw [hlink, hlink]
        rw [holding_apply, bind_apply] at hk hK
        rw [holding_apply, holding_apply, bind_apply, bind_apply]
        obtain ⟨-, heq⟩ := (UpTo.callMethod limit (he (j + L) (by omega)) o strName [] span).1
          { m with held := .obj (.owned o) :: m.held }
        have hmore := (hcall o strName [] span).2 { m with held := .obj (.owned o) :: m.held }
        rcases hr : callMethod limit e o strName [] span { m with held := .obj (.owned o) :: m.held } with
          ⟨s | w, m'⟩
        · rw [hr] at hk hK heq
          rw [heq (fun h => hk (congrArg _ (Except.error.inj h))) hK]
        · rw [hr] at hk hK heq hmore
          have hsize := (hgrow k span w m').1
          have hnext : m.trace.size < m'.trace.size := hmore
          rw [heq nofun (Nat.le_trans hsize hK)]
          dsimp only
          rw [ih (by omega) hk hK]

/-- A run in which whole chains are shown is the run that watches for endless ones, up to any event. -/
theorem exists_upTo (limit : Option Nat) (stop : Signal) (K n : Nat) :
    ∃ F, ∀ k ≥ F, ∀ node,
      UpTo K (wholeTexts limit stop n node) (watch (chainWatch limit) stop limit k node) := by
  induction n with
  | zero => exact ⟨0, fun k _ node => .exhausted _⟩
  | succ n ih =>
    obtain ⟨F, hF⟩ := ih
    -- `F` for what calls carry out, `K + 1` for a whole chain, and the step itself
    refine ⟨F + (K + 2), fun k hk node => ?_⟩
    obtain ⟨j, rfl⟩ := Nat.exists_eq_add_of_le' hk
    have hcall := UpTo.callMethod limit (hF (j + F + (K + 1)) (by omega))
    rw [show j + (F + (K + 2)) = j + F + (K + 1) + 1 by omega, watch_chainWatch_succ, wholeTexts_succ]
    refine (UpTo.congruence K).execOver ⟨fun o name args span => (hcall o name args span).1,
      hF _ (by omega), fun span v m => ?_⟩ node
    have hgrow (k : Nat) :=
      UpTo.chained limit stop (fun o name args span => (hcall o name args span).1.left) k span v m
    by_cases hex : ∃ k, (chained limit stop (callMethod limit (wholeTexts limit stop n)) k span v m).1 ≠
      .error .exhausted
    · obtain ⟨k, hk, heq⟩ := finalText_of_exists hex
      rw [heq]
      exact ⟨(hgrow k).1, fun _ hK => watchText_of_chained hF (by omega) (by omega) hk hK⟩
    · rw [finalText_of_not_exists hex]
      exact ⟨Nat.le_refl _, fun h => absurd rfl h⟩

/-- What ends when whole chains are shown ends in the same way when it is watched for endless ones. -/
theorem exists_watch_eq {n : Nat} {node : Node} {m : Machine}
    (h : (wholeTexts limit stop n node m).1 ≠ .error .exhausted) :
    ∃ k, watch (chainWatch limit) stop limit k node m = wholeTexts limit stop n node m := by
  obtain ⟨F, hF⟩ := exists_upTo limit stop (wholeTexts limit stop n node m).2.trace.size n
  exact ⟨F, (hF F (Nat.le_refl F) node m).2 h (Nat.le_refl _)⟩

/-- A call that gives a value when whole chains are shown does so anyway. -/
theorem exists_call_eq {e : RuntimeError} {n : Nat} {o : ObjId} {name : String} {args : List Value}
    {span : Span} {m m' : Machine} {w : Value}
    (h : callMethod limit (wholeTexts limit (.error e) n) o name args span m = (.ok w, m')) :
    ∃ k, callMethod limit (exec limit k) o name args span m = (.ok w, m') := by
  obtain ⟨F, hF⟩ := exists_upTo limit (.error e) m'.trace.size n
  have hcall := (UpTo.callMethod limit (hF F (Nat.le_refl F)) o name args span).1 m
  rw [h] at hcall
  have hwatch := hcall.2 nofun (Nat.le_refl _)
  refine ⟨F, ?_⟩
  rw [← hwatch]
  refine Unless.callMethod (fun _ _ => nofun) limit (unless_stopped (chainWatch limit) e limit F).1 o name
    args span m fun s hs => ?_
  rw [hwatch] at hs
  cases hs

end

/-! ### Runs under a limit -/

section

variable {N : Nat} {ds : List ClassDecl} {d n : Nat} {e : RuntimeError}
  (hcall : ∀ o name args span, Settles ds d (· ≠ .exhausted) (fun _ => True)
    (callMethod (some N) (wholeTexts (some N) (.error e) n) o name args span))
include hcall

/-- If calls end, so does every chain of methods for texts that is not endless. -/
theorem exists_chained (span : Span) (v : Value) (m : Machine) (hds : m.heap.classes = ds)
    (hd : m.depth = d) :
    ∃ k, (chained (some N) (.error e) (callMethod (some N) (wholeTexts (some N) (.error e) n)) k span v m).1 ≠
      .error .exhausted := by
  by_cases hend : EndlessText (some N) v m
  · refine ⟨1, ?_⟩
    rw [chained_of_endless hend]
    exact nofun
  -- a chain that is not endless is followed to its end
  have hacc : Acc (fun y x => Defers (some N) span x y) (v, m) := by
    by_contra hnot
    obtain ⟨chain, h0, hchain⟩ := not_acc_iff_exists_descending_chain.1 hnot
    exact hend ⟨span, chain, h0, hchain⟩
  clear hend
  generalize hx : (v, m) = x at hacc
  induction hacc generalizing v m with
  | intro x _ ih =>
    obtain rfl := hx
    by_cases hend : EndlessText (some N) v m
    · refine ⟨1, ?_⟩
      rw [chained_of_endless hend]
      exact nofun
    rcases textOver_cases span v m with ⟨r, hr, htext⟩ | ⟨a, o, rfl, ho, hmethod, htext⟩
    · refine ⟨1, ?_⟩
      rw [chained_of_not_endless hend, htext]
      exact hr
    · obtain ⟨hds', hd', hclose⟩ := hcall o strName [] span { m with held := .obj (.owned o) :: m.held } hds hd
      rcases hr : callMethod (some N) (wholeTexts (some N) (.error e) n) o strName [] span
        { m with held := .obj (.owned o) :: m.held } with ⟨s | w, m'⟩
      · rw [hr] at hclose
        refine ⟨1, ?_⟩
        rw [chained_of_not_endless hend, htext, holding_apply, bind_apply, hr]
        exact fun h => hclose (Except.error.inj h)
      · rw [hr] at hds' hd'
        obtain ⟨j, hj⟩ := exists_call_eq hr
        obtain ⟨k, hk⟩ := ih (w, m') ⟨a, o, j, rfl, ho, hmethod, hj⟩ w m' hds' hd' rfl
        refine ⟨k + 1, ?_⟩
        rw [chained_of_not_endless hend, htext, holding_apply, bind_apply, hr]
        exact hk

/-- If calls end, so does the text of every value. -/
theorem settles_finalText (span : Span) (v : Value) :
    Settles ds d (· ≠ .exhausted) (fun _ => True)
      (finalText (some N) (.error e) (callMethod (some N) (wholeTexts (some N) (.error e) n)) span v) := by
  intro m hds hd
  obtain ⟨k, hk, heq⟩ := finalText_of_exists (exists_chained hcall span v m hds hd)
  have hchained : ∀ k span v, Settles ds d (fun _ => True) (fun _ => True) (chained (some N) (.error e)
      (callMethod (some N) (wholeTexts (some N) (.error e) n)) k span v) := by
    intro k
    induction k with
    | zero => exact fun _ _ => .still (fun _ => rfl) trivial
    | succ k ih =>
      intro span v
      refine .guarded (.textOver (fun _ _ => trivial) ?_ ih span v) trivial
      exact fun o name args span => (hcall o name args span).mono (fun _ _ => trivial) fun _ hx => hx
  obtain ⟨hds', hd', -⟩ := hchained k span v m hds hd
  rw [heq]
  exact ⟨hds', hd', closes_iff.2 hk⟩

end

/-- Under a limit a run ends, if it stops at the second of two methods for texts in a row, in the way of the
run itself unless it has stopped; and the run itself ends unless it asks for a text whose methods follow one
another without end. -/
theorem ends_but_for_texts (N : Nat) (node : Node) (m : Machine) :
    (∀ stop : RuntimeError, ∃ r m', r ≠ .error .exhausted ∧
      (∃ n, ∀ k ≥ n, curtailed (some N) stop k node m = (r, m')) ∧
      (r ≠ .error (.error stop) → ∃ n, ∀ k ≥ n, exec (some N) k node m = (r, m'))) ∧
    ((∃ r m', r ≠ .error .exhausted ∧ ∃ n, ∀ k ≥ n, exec (some N) k node m = (r, m')) ∨
      ∃ n, ¬ Throughout (chainWatch (some N)) (some N) n node m) := by
  let n := sizeOf node + (N - m.depth) * sizeOf m.heap.classes
  constructor
  · intro stop
    have hend := closes_iff.1 (settles_execWith (shows_lastText (some N) m.heap.classes stop)
      (Nat.le_refl n) m rfl rfl).2.2
    refine ⟨(curtailed (some N) stop n node m).1, (curtailed (some N) stop n node m).2, hend,
      ⟨n, fun k hk => curtailed_of_le (some N) stop hk node m hend⟩, fun hstop => ⟨2 * n + 1, fun k hk => ?_⟩⟩
    refine unless_curtailed (some N) stop hk node m ?_
    rintro s hs (rfl | rfl)
    · exact hend hs
    · exact hstop hs
  · by_cases hall : ∀ n, Throughout (chainWatch (some N)) (some N) n node m
    · have hshows : Shows (some N) m.heap.classes (finalText (some N) (.error (.output ""))) :=
        fun _ _ hcall => settles_finalText hcall
      have hend := closes_iff.1 (settles_execWith hshows (Nat.le_refl n) m rfl rfl).2.2
      obtain ⟨k, hk⟩ := exists_watch_eq hend
      have hexec := (hall k _).symm.trans hk
      have hne : (exec (some N) k node m).1 ≠ .error .exhausted := by rwa [hexec]
      exact .inl ⟨_, _, hne, k, fun j hj => exec_of_le (some N) hj node m hne⟩
    · exact .inr (not_forall.1 hall)

end ClassScript.Exec

import ClassScript.Proofs.Returns
import ClassScript.Proofs.SpareHolds
import ClassScript.Run.Fuel

/-!
# Boolean algebra

Operators of Boolean values and conditionals are choices between two ways to go on (`branch`), and what follows a
choice may be done by each of the ways.  A node unfolds into choices between the runs of what it is made of, but
for how far the fuel goes (`Unfolds`), so nodes that unfold into the same choices may be written for one another.
What a conditional holds while a branch runs matters only if the condition gives an object or a class that
nothing else retains.  Main statement: `boolean_laws`.
-/

namespace ClassScript

/-- A value that holds owns nothing. -/
theorem Value.owned_of_truthy {v : Value} (h : v.truthy = true) : v.owned = [] := by
  cases v with
  | cls c => cases h
  | obj a => cases h
  | _ => rfl

namespace Exec

/-! ### Choices -/

/-- Goes on with `yes` if a value holds, and otherwise as `no` says of it. -/
def branch (a yes : Exec Value) (no : Value → Exec Value) : Exec Value := do
  let v ← a
  if v.truthy then yes else no v

/-- A truth value. -/
def truth (b : Bool) : Exec Value := return .bool b

def negated (a : Exec Value) : Exec Value := branch a (truth false) fun _ => truth true

def both (a b : Exec Value) : Exec Value :=
  branch a (branch b (truth true) fun _ => truth false) fun _ => truth false

def either (a b : Exec Value) : Exec Value :=
  branch a (truth true) fun _ => branch b (truth true) fun _ => truth false

section

variable {a b c yes yes' : Exec Value} {no no' : Value → Exec Value}

@[simp] theorem branch_true : branch (truth true) yes no = yes := rfl

@[simp] theorem branch_false : branch (truth false) yes no = no (.bool false) := rfl

/-- What follows a choice may be done by each of the ways to go on. -/
@[simp] theorem branch_branch : branch (branch a yes no) yes' no' =
    branch a (branch yes yes' no') fun v => branch (no v) yes' no' := by
  rw [branch, branch, branch, bind_assoc]
  refine bind_congr fun v => ?_
  split
  · rfl
  · rfl

/-- From a machine, ways to go on without a value that holds matter only where the condition ends with one. -/
theorem branch_congr {m : Machine} (h : ∀ v m', a m = (.ok v, m') → v.truthy = false → no v m' = no' v m') :
    branch a yes no m = branch a yes no' m := by
  rw [branch, branch, bind_apply, bind_apply]
  rcases hr : a m with ⟨s | v, m'⟩
  · rfl
  · dsimp only
    cases hv : v.truthy with
    | true => rfl
    | false => exact h v m' hr hv

theorem branch_of_error {m m' : Machine} {e : Signal} (h : a m = (.error e, m')) :
    branch a yes no m = (.error e, m') := by
  rw [branch, bind_apply, h]

theorem branch_of_falsy {m m' : Machine} {v : Value} (h : a m = (.ok v, m')) (hv : v.truthy = false) :
    branch a yes no m = no v m' := by
  rw [branch, bind_apply, h]
  dsimp only
  rw [hv]
  rfl

theorem negated_both : negated (both a b) = either (negated a) (negated b) := by
  simp only [negated, both, either, branch_branch, branch_true, branch_false]

theorem negated_either : negated (either a b) = both (negated a) (negated b) := by
  simp only [negated, both, either, branch_branch, branch_true, branch_false]

theorem both_assoc : both (both a b) c = both a (both b c) := by
  simp only [both, branch_branch, branch_true, branch_false]

theorem either_assoc : either (either a b) c = either a (either b c) := by
  simp only [either, branch_branch, branch_true, branch_false]

theorem negated_negated_either : negated (negated (either a b)) = either a b := by
  simp only [negated, either, branch_branch, branch_true, branch_false]

theorem branch_both : branch (both a b) yes no =
    branch a (branch b yes fun _ => no (.bool false)) fun _ => no (.bool false) := by
  simp only [both, branch_branch, branch_true, branch_false]

theorem branch_negated : branch (negated a) yes no = branch a (no (.bool false)) fun _ => yes := by
  simp only [negated, branch_branch, branch_true, branch_false]

theorem both_eq_branch : both a b = branch a (negated (negated b)) fun v => holding v (truth false) := by
  simp only [both, negated, branch_branch, branch_true, branch_false]
  rfl

/-! Choices between truth values give truth values. -/

/-- An action that gives nothing but truth values. -/
def Decides (a : Exec Value) : Prop := Only (fun _ _ => True) (fun v => ∃ b, v = .bool b) a

theorem decides_truth (b : Bool) : Decides (truth b) := fun _ => ⟨b, rfl⟩

theorem Decides.branch (hyes : Decides yes) (hno : ∀ v, Decides (no v)) : Decides (branch a yes no) := by
  refine Only.bind (Q := fun _ => True) (fun m => .of_true (a m).1) fun v _ => ?_
  split
  · exact hyes
  · exact hno v

theorem decides_negated (a : Exec Value) : Decides (negated a) :=
  (decides_truth false).branch fun _ => decides_truth true

theorem decides_both (a b : Exec Value) : Decides (both a b) :=
  ((decides_truth true).branch fun _ => decides_truth false).branch fun _ => decides_truth false

theorem decides_either (a b : Exec Value) : Decides (either a b) :=
  (decides_truth true).branch fun _ => (decides_truth true).branch fun _ => decides_truth false

end

/-! ### Nodes as choices -/

section

variable (limit : Option Nat) (n : Nat) (s : Span) (x y z : Node)

theorem exec_not : exec limit (n + 1) (.not s x) = negated (exec limit n x) := by
  refine bind_congr fun v => ?_
  cases v.truthy with
  | true => rfl
  | false => rfl

/-- The second operand matters only by whether it holds. -/
theorem bind_truthy (a : Exec Value) :
    (a >>= fun v => pure (.bool v.truthy)) = branch a (truth true) fun _ => truth false := by
  refine bind_congr fun v => ?_
  cases v.truthy with
  | true => rfl
  | false => rfl

theorem exec_and : exec limit (n + 1) (.logic s .and x y) = both (exec limit n x) (exec limit n y) := by
  refine bind_congr fun v => ?_
  cases v.truthy with
  | true => exact bind_truthy (exec limit n y)
  | false => rfl

theorem exec_or : exec limit (n + 1) (.logic s .or x y) = either (exec limit n x) (exec limit n y) := by
  refine bind_congr fun v => ?_
  cases v.truthy with
  | true => rfl
  | false => exact bind_truthy (exec limit n y)

theorem exec_ifElse : exec limit (n + 1) (.ifElse s x y (some z)) =
    branch (exec limit n x) (exec limit n y) fun v => holding v (exec limit n z) := by
  refine bind_congr fun v => ?_
  cases hv : v.truthy with
  | true => exact holding_exec_of_plain (Value.owned_of_truthy hv) limit n y
  | false => rfl

theorem exec_ifThen : exec limit (n + 1) (.ifElse s x y none) =
    branch (exec limit n x) (exec limit n y) fun _ => pure .none := by
  refine bind_congr fun v => ?_
  cases hv : v.truthy with
  | true => exact holding_exec_of_plain (Value.owned_of_truthy hv) limit n y
  | false => rfl

theorem exec_suite : exec limit (n + 1) (.block s [x]) = exec limit n x := by
  show holding .none (exec limit n x) >>= pure = _
  rw [bind_pure]
  exact holding_exec_of_plain rfl limit n x

end

/-! ### Unfolding -/

theorem Below.branch {a a' yes yes' : Exec Value} {no no' : Value → Exec Value} (ha : Below a a')
    (hyes : Below yes yes') (hno : ∀ v, Below (no v) (no' v)) : Below (branch a yes no) (branch a' yes' no') := by
  refine Below.congruence.bind ha fun v => ?_
  split
  · exact hyes
  · exact hno v

/-- A node ends like this if there is fuel enough. -/
def Finishes (limit : Option Nat) (x : Node) (m : Machine) (r : Except Signal Value) (m' : Machine) : Prop :=
  r ≠ .error .exhausted ∧ ∃ n, exec limit n x m = (r, m')

theorem Finishes.of_ok {limit : Option Nat} {n : Nat} {x : Node} {m m' : Machine} {v : Value}
    (h : exec limit n x m = (.ok v, m')) : Finishes limit x m (.ok v) m' :=
  ⟨nofun, n, h⟩

theorem Finishes.unique {limit : Option Nat} {x : Node} {m m₁ m₂ : Machine} {r₁ r₂ : Except Signal Value}
    (h₁ : Finishes limit x m r₁ m₁) (h₂ : Finishes limit x m r₂ m₂) : r₁ = r₂ ∧ m₁ = m₂ := by
  obtain ⟨hr₁, n₁, hn₁⟩ := h₁
  obtain ⟨hr₂, n₂, hn₂⟩ := h₂
  have hmax₁ := exec_of_le limit (Nat.le_max_left n₁ n₂) x m (by rwa [hn₁])
  have hmax₂ := exec_of_le limit (Nat.le_max_right n₁ n₂) x m (by rwa [hn₂])
  rw [hn₁] at hmax₁
  rw [hmax₁, hn₂] at hmax₂
  exact Prod.mk.inj hmax₂

/-- From a machine, two nodes end alike: with the same results, output, scopes, heap and trace. -/
def EndAlike (limit : Option Nat) (m : Machine) (x y : Node) : Prop :=
  ∀ r m', Finishes limit x m r m' ↔ Finishes limit y m r m'

/-- What a node does is what `A` does, but for how far the fuel goes. -/
structure Unfolds (limit : Option Nat) (x : Node) (A : Nat → Exec Value) : Prop where
  below : ∀ n, Below (exec limit n x) (A n)
  above : ∃ d, ∀ n, Below (A n) (exec limit (n + d) x)

namespace Unfolds

variable {limit : Option Nat} {x y z w : Node} {s : Span} {A B C : Nat → Exec Value}

theorem self : Unfolds limit x fun n => exec limit n x :=
  ⟨fun _ => .refl _, 0, fun _ => .refl _⟩

/-- A node that is put together from three others. -/
theorem of_parts {f : Exec Value → Exec Value → Exec Value → Exec Value}
    (hw : ∀ n, exec limit (n + 1) w = f (exec limit n x) (exec limit n y) (exec limit n z))
    (hf : ∀ {a a' b b' c c'}, Below a a' → Below b b' → Below c c' → Below (f a b c) (f a' b' c'))
    (hx : Unfolds limit x A) (hy : Unfolds limit y B) (hz : Unfolds limit z C) :
    Unfolds limit w fun n => f (A n) (B n) (C n) := by
  constructor
  · intro n
    cases n with
    | zero => exact fun _ hm => absurd rfl hm
    | succ n =>
      have hle {v : Node} {D : Nat → Exec Value} (h : Unfolds limit v D) : Below (exec limit n v) (D (n + 1)) :=
        (exec_of_le limit (Nat.le_succ n) v).trans (h.below (n + 1))
      rw [hw]
      exact hf (hle hx) (hle hy) (hle hz)
  · obtain ⟨i, hi⟩ := hx.above
    obtain ⟨j, hj⟩ := hy.above
    obtain ⟨k, hk⟩ := hz.above
    refine ⟨i + j + k + 1, fun n => ?_⟩
    show Below _ (exec limit (n + (i + j + k) + 1) w)
    rw [hw]
    exact hf ((hi n).trans (exec_of_le limit (by omega) x)) ((hj n).trans (exec_of_le limit (by omega) y))
      ((hk n).trans (exec_of_le limit (by omega) z))

protected theorem not (hx : Unfolds limit x A) : Unfolds limit (.not s x) fun n => negated (A n) :=
  of_parts (exec_not limit · s x) (fun ha _ _ => ha.branch (.refl _) fun _ => .refl _) hx hx hx

protected theorem and (hx : Unfolds limit x A) (hy : Unfolds limit y B) :
    Unfolds limit (.logic s .and x y) fun n => both (A n) (B n) :=
  of_parts (exec_and limit · s x y)
    (fun ha hb _ => ha.branch (hb.branch (.refl _) fun _ => .refl _) fun _ => .refl _) hx hy hy

protected theorem or (hx : Unfolds limit x A) (hy : Unfolds limit y B) :
    Unfolds limit (.logic s .or x y) fun n => either (A n) (B n) :=
  of_parts (exec_or limit · s x y)
    (fun ha hb _ => ha.branch (.refl _) fun _ => hb.branch (.refl _) fun _ => .refl _) hx hy hy

theorem ifElse (hx : Unfolds limit x A) (hy : Unfolds limit y B) (hz : Unfolds limit z C) :
    Unfolds limit (.ifElse s x y (some z)) fun n => branch (A n) (B n) fun v => holding v (C n) :=
  of_parts (exec_ifElse limit · s x y z) (fun ha hb hc => ha.branch hb (Below.congruence.holding · hc)) hx hy hz

theorem ifThen (hx : Unfolds limit x A) (hy : Unfolds limit y B) :
    Unfolds limit (.ifElse s x y none) fun n => branch (A n) (B n) fun _ => pure .none :=
  of_parts (exec_ifThen limit · s x y) (fun ha hb _ => ha.branch hb fun _ => .refl _) hx hy hy

theorem literal {v : Literal} : Unfolds limit (.literal s v) fun _ => pure v.toValue := by
  have h : Unfolds limit (.literal s v) _ := self
  exact of_parts (f := fun _ _ _ => pure v.toValue) (fun _ => rfl) (fun _ _ _ => .refl _) h h h

theorem suite (hx : Unfolds limit x A) : Unfolds limit (.block s [x]) A :=
  of_parts (exec_suite limit · s x) (fun ha _ _ => ha) hx hx hx

theorem finishes_iff (h : Unfolds limit x A) {m m' : Machine} {r : Except Signal Value} :
    Finishes limit x m r m' ↔ r ≠ .error .exhausted ∧ ∃ n, A n m = (r, m') := by
  refine and_congr_right fun hr => ⟨fun ⟨n, hn⟩ => ⟨n, ?_⟩, fun ⟨n, hn⟩ => ?_⟩
  · rw [h.below n m (by rwa [hn]), hn]
  · obtain ⟨d, hd⟩ := h.above
    exact ⟨n + d, by rw [hd n m (by rwa [hn]), hn]⟩

theorem congr (hx : Unfolds limit x A) (h : ∀ n, A n = B n) : Unfolds limit x B := funext h ▸ hx

/-- Nodes that unfold into what does the same end alike. -/
theorem endAlike {m : Machine} (hx : Unfolds limit x A) (hy : Unfolds limit y B) (h : ∀ n, A n m = B n m) :
    EndAlike limit m x y := by
  intro r m'
  rw [hx.finishes_iff, hy.finishes_iff]
  simp only [h]

theorem bool_of_decides (hx : Unfolds limit x A) (hA : ∀ n, Decides (A n)) {m m' : Machine} {v : Value}
    (h : Finishes limit x m (.ok v) m') : ∃ b, v = .bool b := by
  obtain ⟨-, n, hn⟩ := hx.finishes_iff.1 h
  have hv := hA n m
  rw [hn] at hv
  exact hv

end Unfolds

/-! ### Negated conditions -/

section

variable {limit : Option Nat} {m m₁ m' : Machine} {a b c : Node} {s t u : Span} {v : Value}
  {r : Except Signal Value}

theorem unfolds_ifElse_not : Unfolds limit (.ifElse s (.not t a) b (some c)) fun n =>
    branch (exec limit n a) (exec limit n c) fun _ => exec limit n b := by
  refine (Unfolds.ifElse (.not .self) .self .self).congr fun n => ?_
  rw [branch_negated, holding_exec_of_plain rfl]

/-- With a negated condition the branches may be exchanged where a value that does not hold need not be held. -/
theorem endAlike_ifElse_not
    (h : ∀ v m₁, Finishes limit a m (.ok v) m₁ → v.truthy = false → m₁.Spares v) :
    EndAlike limit m (.ifElse s (.not t a) b (some c)) (.ifElse u a c (some b)) := by
  refine unfolds_ifElse_not.endAlike (.ifElse .self .self .self) fun n => branch_congr fun v m₁ hr hv => ?_
  exact (holding_exec_of_spares (h v m₁ (.of_ok hr) hv) n b).symm

/-- So it is in a settled machine if the condition gives no class that is not at hand. -/
theorem endAlike_ifElse_not_of_settled (hm : m.Settled)
    (hcls : ∀ d m₁, Finishes limit a m (.ok (.cls d)) m₁ → d ∈ m.pinned) :
    EndAlike limit m (.ifElse s (.not t a) b (some c)) (.ifElse u a c (some b)) := by
  refine endAlike_ifElse_not fun v m₁ h _ => ?_
  obtain ⟨-, n, hn⟩ := id h
  obtain ⟨hsettled, hpinned, hfine⟩ := settled_exec hm limit n a
  rw [hn] at hsettled hpinned hfine
  refine .inr ⟨hsettled, hfine, ?_⟩
  rintro d rfl
  exact .inl ⟨d, hpinned ▸ hcls d m₁ h, rfl⟩

/-- A choice whose condition ends with a value that does not hold. -/
theorem finishes_branch_iff {x : Node} {no : Nat → Value → Exec Value} {C : Nat → Exec Value}
    (hx : Unfolds limit x fun n => branch (exec limit n a) (C n) (no n)) (ha : Finishes limit a m (.ok v) m₁)
    (hv : v.truthy = false) (hno : ∀ {n k}, n ≤ k → Below (no n v) (no k v)) :
    Finishes limit x m r m' ↔ r ≠ .error .exhausted ∧ ∃ n, no n v m₁ = (r, m') := by
  rw [hx.finishes_iff]
  refine and_congr_right fun hr => ⟨fun ⟨n, hn⟩ => ?_, fun ⟨n, hn⟩ => ?_⟩
  · rcases hrun : exec limit n a m with ⟨e | w, m₂⟩
    · rw [branch_of_error hrun] at hn
      obtain ⟨rfl, -⟩ := Prod.mk.inj hn
      have hsame := (ha.unique ⟨hr, n, hrun⟩).1
      cases hsame
    · obtain ⟨hsame, rfl⟩ := ha.unique (.of_ok hrun)
      cases hsame
      rw [branch_of_falsy hrun hv] at hn
      exact ⟨n, hn⟩
  · obtain ⟨-, k, hk⟩ := ha
    refine ⟨max n k, ?_⟩
    have hkm : exec limit (max n k) a m = (.ok v, m₁) := by
      rw [exec_of_le limit (Nat.le_max_right n k) a m (by rw [hk]; nofun), hk]
    rw [branch_of_falsy hkm hv, hno (Nat.le_max_left n k) m₁ (by rwa [hn]), hn]

theorem finishes_holding_iff : (r ≠ .error .exhausted ∧ ∃ n, holding v (exec limit n b) m = (r, m')) ↔
    ∃ m₂, Finishes limit b { m with held := v :: m.held } r m₂ ∧ m' = { m₂ with held := m.held } := by
  constructor
  · rintro ⟨hr, n, hn⟩
    rw [holding_apply] at hn
    obtain ⟨rfl, rfl⟩ := Prod.mk.inj hn
    exact ⟨_, ⟨hr, n, rfl⟩, rfl⟩
  · rintro ⟨m₂, ⟨hr, n, hn⟩, rfl⟩
    refine ⟨hr, n, ?_⟩
    rw [holding_apply, hn]

end

end Exec

open Exec

namespace Node

/-- Two nodes may be written for one another: wherever they are carried out, they end alike or both do not end. -/
def Interchangeable (x y : Node) : Prop := ∀ limit m, EndAlike limit m x y

theorem Interchangeable.of_unfolds {x y : Node} {A B : Option Nat → Nat → Exec Value}
    (hx : ∀ limit, Unfolds limit x (A limit)) (hy : ∀ limit, Unfolds limit y (B limit))
    (h : ∀ limit n, A limit n = B limit n) : x.Interchangeable y :=
  fun limit m => (hx limit).endAlike (hy limit) fun n => congrFun (h limit n) m

/-- A node, or a suite of it alone. -/
def Suite (x y : Node) : Prop := y = x ∨ ∃ s, y = .block s [x]

theorem Suite.unfolds {x y : Node} (h : x.Suite y) {limit : Option Nat} {A : Nat → Exec Value}
    (hx : Unfolds limit x A) : Unfolds limit y A := by
  rcases h with rfl | ⟨s, rfl⟩
  · exact hx
  · exact hx.suite

end Node

/-- What operators and conditionals of three nodes have in common, whatever the nodes do. -/
structure BooleanLaws (a b c : Node) : Prop where
  not_and : ∀ {s t u v w : Span},
    Node.Interchangeable (.not s (.logic t .and a b)) (.logic u .or (.not v a) (.not w b))
  not_or : ∀ {s t u v w : Span},
    Node.Interchangeable (.not s (.logic t .or a b)) (.logic u .and (.not v a) (.not w b))
  and_assoc : ∀ {s t u v : Span},
    Node.Interchangeable (.logic s .and (.logic t .and a b) c) (.logic u .and a (.logic v .and b c))
  or_assoc : ∀ {s t u v : Span},
    Node.Interchangeable (.logic s .or (.logic t .or a b) c) (.logic u .or a (.logic v .or b c))
  not_not_or : ∀ {s t u v : Span}, Node.Interchangeable (.not s (.not t (.logic u .or a b))) (.logic v .or a b)
  and_as_if : ∀ {s t u v w : Span} {yes no : Node}, Node.Suite (.not u (.not v b)) yes →
    Node.Suite (.literal w (.bool false)) no →
      Node.Interchangeable (.logic s .and a b) (.ifElse t a yes (some no))
  if_and : ∀ {s t u v : Span} {yes : Node}, Node.Suite (.ifElse v b c none) yes →
    Node.Interchangeable (.ifElse s (.logic t .and a b) c none) (.ifElse u a yes none)
  /-- The branches of a negated condition may be exchanged, unless a value that does not hold is kept alive. -/
  if_not : ∀ {limit m} {s t u : Span},
    (∀ v m₁, Finishes limit a m (.ok v) m₁ → v.truthy = false → m₁.Spares v) →
      EndAlike limit m (.ifElse s (.not t a) b (some c)) (.ifElse u a c (some b))
  if_not_settled : ∀ {limit m} {s t u : Span}, m.Settled →
    (∀ d m₁, Finishes limit a m (.ok (.cls d)) m₁ → d ∈ m.pinned) →
      EndAlike limit m (.ifElse s (.not t a) b (some c)) (.ifElse u a c (some b))
  /-- Of two such conditionals only the one that is not negated holds the value. -/
  if_not_falsy : ∀ {limit m m₁ v r m'} {s t u : Span}, Finishes limit a m (.ok v) m₁ → v.truthy = false →
    (Finishes limit (.ifElse s (.not t a) b (some c)) m r m' ↔ Finishes limit b m₁ r m') ∧
    (Finishes limit (.ifElse u a c (some b)) m r m' ↔
      ∃ m₂, Finishes limit b { m₁ with held := v :: m₁.held } r m₂ ∧ m' = { m₂ with held := m₁.held })
  bool_of_not : ∀ {limit m v m'} {s : Span}, Finishes limit (.not s a) m (.ok v) m' → ∃ t, v = .bool t
  bool_of_logic : ∀ {limit m v m'} {s : Span} {op : LogicOp},
    Finishes limit (.logic s op a b) m (.ok v) m' → ∃ t, v = .bool t

/-- Boolean algebra holds of programs. -/
theorem boolean_laws (a b c : Node) : BooleanLaws a b c where
  not_and := .of_unfolds (fun _ => .not (.and .self .self)) (fun _ => .or (.not .self) (.not .self))
    fun _ _ => negated_both
  not_or := .of_unfolds (fun _ => .not (.or .self .self)) (fun _ => .and (.not .self) (.not .self))
    fun _ _ => negated_either
  and_assoc := .of_unfolds (fun _ => .and (.and .self .self) .self) (fun _ => .and .self (.and .self .self))
    fun _ _ => both_assoc
  or_assoc := .of_unfolds (fun _ => .or (.or .self .self) .self) (fun _ => .or .self (.or .self .self))
    fun _ _ => either_assoc
  not_not_or := .of_unfolds (fun _ => .not (.not (.or .self .self))) (fun _ => .or .self .self)
    fun _ _ => negated_negated_either
  and_as_if hyes hno := .of_unfolds (fun _ => .and .self .self)
    (fun _ => .ifElse .self (hyes.unfolds (.not (.not .self))) (hno.unfolds .literal)) fun _ _ => both_eq_branch
  if_and hyes := .of_unfolds (fun _ => .ifThen (.and .self .self) .self)
    (fun _ => .ifThen .self (hyes.unfolds (.ifThen .self .self))) fun _ _ => branch_both
  if_not := endAlike_ifElse_not
  if_not_settled := endAlike_ifElse_not_of_settled
  if_not_falsy ha hv := by
    constructor
    · exact finishes_branch_iff unfolds_ifElse_not ha hv fun hle => exec_of_le _ hle b
    · refine Iff.trans (finishes_branch_iff (.ifElse .self .self .self) ha hv fun hle => ?_) finishes_holding_iff
      exact Below.congruence.holding _ (exec_of_le _ hle b)
  bool_of_not := (Unfolds.not .self).bool_of_decides fun _ => decides_negated _
  bool_of_logic {_ _ _ _ _ op} h := by
    cases op with
    | and => exact (Unfolds.and .self .self).bool_of_decides (fun _ => decides_both _ _) h
    | or => exact (Unfolds.or .self .self).bool_of_decides (fun _ => decides_either _ _) h

/-- Conditions that end with a class at hand or with a new object. -/
theorem boolean_laws_falsy_conditions :
    let zero : Node := .literal {} (.int 0)
    let one : Node := .literal {} (.int 1)
    let c : ClassDecl := ⟨⟨0, "C"⟩, none, [⟨"f", [], .methodBody {} (.block {} [.ret {} zero])⟩]⟩
    let m := Machine.load {} (.block {} [.classDef {} c])
    let bound : Machine := { m with scope := ⟨[("C", .cls c.id)]⟩ }
    let named : Node := .lookup {} ["C"]
    let made : Node := .new {} c.id []
    (∃ m₁, Finishes none named bound (.ok (.cls c.id)) m₁) ∧
    EndAlike none bound (.ifElse {} (.not {} named) one (some zero)) (.ifElse {} named zero (some one)) ∧
    m.Settled ∧
    EndAlike none m (.ifElse {} (.not {} made) one (some zero)) (.ifElse {} made zero (some one)) ∧
    ∃ m₁, Finishes none made m (.ok (.obj (.owned 0))) m₁ ∧
      Finishes none (.ifElse {} (.not {} made) one (some zero)) m (.ok (.int 1)) m₁ ∧
      Finishes none (.ifElse {} made zero (some one)) m (.ok (.int 1)) m₁ := by
  intro zero one c m bound named made
  have hpinned : m.pinned = [c.id] := by
    dsimp only [m, c, zero]
    decide +kernel
  have hnamed : Finishes none named bound (.ok (.cls c.id)) bound := .of_ok (n := 3) rfl
  have hmade : Finishes none made m (.ok (.obj (.owned 0))) (exec none 3 made m).2 := by
    refine .of_ok (Prod.ext ?_ rfl)
    dsimp only [m, made, c, zero]
    decide +kernel
  have hone (m : Machine) : Finishes none one m (.ok (.int 1)) m := .of_ok (n := 1) rfl
  have hsettled : m.Settled := Machine.Starting.empty.settled rfl _
  refine ⟨⟨_, hnamed⟩, (boolean_laws named one zero).if_not ?_, hsettled,
    (boolean_laws made one zero).if_not_settled hsettled ?_, _, hmade, ?_, ?_⟩
  · intro v m₁ h _
    obtain ⟨hv, rfl⟩ := h.unique hnamed
    cases hv
    exact .inl fun e he => .inl ⟨c.id, by simp [bound, hpinned], (List.mem_singleton.1 he).symm⟩
  · intro d m₁ h
    cases (h.unique hmade).1
  · exact ((boolean_laws made one zero).if_not_falsy (u := {}) hmade rfl).1.2 (hone _)
  · exact ((boolean_laws made one zero).if_not_falsy (s := {}) (t := {}) hmade rfl).2.2 ⟨_, hone _, rfl⟩

/-- The condition makes an object of a class that only a global owns. The branch takes the class from the global
and makes another object: it still finds the class only if the first object is held. -/
theorem not_interchangeable_ifElse_not :
    let zero : Node := .literal {} (.int 0)
    let d : ClassDecl := ⟨⟨0, "D"⟩, none, [⟨"m", [], .methodBody {} (.block {} [.ret {} zero])⟩]⟩
    let c : ClassDecl := ⟨⟨0, "C"⟩, none,
      [⟨"make", [], .methodBody {} (.block {} [.ret {} (.new {} ⟨0, "D"⟩ [])])⟩]⟩
    let before : Node := .block {} [.classDef {} d, .classDef {} c, .assign {} "c" (.new {} c.id [])]
    let m := ((Machine.load {} before).interpret none 9 before).2.unload
    let make : Node := .call {} (.lookup {} ["c"]) "make" []
    let again : Node := .block {} [.assign {} "D" zero, make]
    (∃ m', Finishes none (.ifElse {} (.not {} make) again (some zero)) m
      (.error (.error (.raised (.nameError "D") {}))) m') ∧
    (∃ m', Finishes none (.ifElse {} make zero (some again)) m (.ok (.obj (.owned 2))) m') ∧
    ¬ Node.Interchangeable (.ifElse {} (.not {} make) again (some zero)) (.ifElse {} make zero (some again)) := by
  intro zero d c before m make again
  have hends {x : Node} {r : Except Signal Value} (hr : r ≠ .error .exhausted) (h : (exec none 12 x m).1 = r) :
      ∃ m', Finishes none x m r m' :=
    ⟨_, hr, 12, Prod.ext h rfl⟩
  have hfails : ∃ m', Finishes none (.ifElse {} (.not {} make) again (some zero)) m
      (.error (.error (.raised (.nameError "D") {}))) m' := by
    refine hends (fun hex => by cases hex) ?_
    dsimp only [m, before, make, again, c, d, zero]
    decide +kernel
  have hgives : ∃ m', Finishes none (.ifElse {} make zero (some again)) m (.ok (.obj (.owned 2))) m' := by
    refine hends (fun hex => by cases hex) ?_
    dsimp only [m, before, make, again, c, d, zero]
    decide +kernel
  refine ⟨hfails, hgives, fun h => ?_⟩
  obtain ⟨m', hfails⟩ := hfails
  obtain ⟨m'', hgives⟩ := hgives
  have hsame := (((h none m _ _).1 hfails).unique hgives).1
  cases hsame

end ClassScript

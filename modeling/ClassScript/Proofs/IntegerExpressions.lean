import ClassScript.Proofs.Calls
import Mathlib.Data.List.Basic

/-!
# Integer expressions

Expressions put together of literals by minus signs and by the four operations, and their values over the whole
numbers.  What goes wrong where such an expression is computed with integers of 64 bits is told by the values of
its parts: a divisor is zero or a value does not fit.  Main statement: a run of the tree of an expression gives its
value, or the fault of the first of its parts that has one, in the order in which they are computed
(`exec_tree`).
-/

namespace ClassScript

/-- An integer expression. Its literals are the integers of 64 bits from zero on. -/
inductive IntExpr where
  | literal (n : Fin 0x8000000000000000)
  | neg (arg : IntExpr)
  | binary (op : ArithOp) (left right : IntExpr)
  deriving DecidableEq, Repr

/-- A whole number is an integer of 64 bits with a sign. -/
def Fits (n : Int) : Prop := -0x8000000000000000 ≤ n ∧ n ≤ 0x7fffffffffffffff

instance : DecidablePred Fits := fun _ => inferInstanceAs (Decidable (_ ∧ _))

namespace IntExpr

/-- The value of an expression over the whole numbers. Quotients are cut towards zero. -/
def value : IntExpr → Int
  | literal n => n
  | neg arg => 0 - arg.value
  | binary .add left right => left.value + right.value
  | binary .sub left right => left.value - right.value
  | binary .mul left right => left.value * right.value
  | binary .div left right => left.value.tdiv right.value

/-- An expression and all that it is put together of, operands before what is made of them and left ones before
right ones. -/
def parts : IntExpr → List IntExpr
  | literal n => [literal n]
  | neg arg => arg.parts ++ [neg arg]
  | binary op left right => left.parts ++ right.parts ++ [binary op left right]

/-- What goes wrong in the outermost operation of an expression, if its operands are right. -/
def fault? : IntExpr → Option RuntimeFault
  | literal _ => none
  | neg arg => if Fits (0 - arg.value) then none else some (.overflow .sub)
  | binary op left right =>
    if op = .div ∧ right.value = 0 then some .divisionByZero
    else if Fits (binary op left right).value then none
    else some (.overflow op)

/-- All values on the way are integers of 64 bits, and no divisor is zero. -/
def Computable (e : IntExpr) : Prop :=
  ∀ p ∈ e.parts, Fits p.value ∧ ∀ left right, p = binary .div left right → right.value ≠ 0

/-- What goes wrong first. -/
def firstFault? (e : IntExpr) : Option RuntimeFault := e.parts.findSome? fault?

/-- How deep the operations of an expression stand in one another. -/
def depth : IntExpr → Nat
  | literal _ => 1
  | neg arg => arg.depth + 1
  | binary _ left right => max left.depth right.depth + 1

/-- The tree of an expression. A minus sign takes its operand from zero. -/
def tree : IntExpr → Node
  | literal n => .literal {} (.int (Int64.ofNat n))
  | neg arg => .arith {} .sub (.literal {} (.int 0)) arg.tree
  | binary op left right => .arith {} op left.tree right.tree

variable {e : IntExpr}

theorem value_binary (op : ArithOp) (left right : IntExpr) :
    (binary op left right).value = op.exact left.value right.value := by
  cases op <;> rfl

/-- An expression has no fault just if its value fits and it is no division by zero. -/
theorem fault?_eq_none_iff :
    e.fault? = none ↔ Fits e.value ∧ ∀ left right, e = binary .div left right → right.value ≠ 0 := by
  cases e with
  | literal n =>
    have hn : Fits (n : Int) := by
      unfold Fits
      omega
    exact iff_of_true rfl ⟨hn, nofun⟩
  | neg arg =>
    rw [fault?, value]
    split
    · rename_i hfits
      exact iff_of_true rfl ⟨hfits, nofun⟩
    · rename_i hfits
      exact iff_of_false nofun fun h => hfits h.1
  | binary op left right =>
    rw [fault?]
    split
    · rename_i hzero
      obtain ⟨rfl, hzero⟩ := hzero
      exact iff_of_false nofun fun h => h.2 left right rfl hzero
    · rename_i hzero
      split
      · rename_i hfits
        refine iff_of_true rfl ⟨hfits, ?_⟩
        rintro l r ⟨⟩ hr
        exact hzero ⟨rfl, hr⟩
      · rename_i hfits
        exact iff_of_false nofun fun h => hfits h.1

theorem firstFault?_eq_none_iff : e.firstFault? = none ↔ e.Computable := by
  rw [firstFault?, List.findSome?_eq_none_iff]
  exact forall₂_congr fun p _ => fault?_eq_none_iff

theorem firstFault?_binary (op : ArithOp) (left right : IntExpr) :
    (binary op left right).firstFault? =
      (left.firstFault?.or right.firstFault?).or (binary op left right).fault? := by
  rw [firstFault?, parts, List.findSome?_append, List.findSome?_append]
  simp [firstFault?]

/-! A minus sign is a difference from zero. -/

theorem tree_neg (arg : IntExpr) : (neg arg).tree = (binary .sub (literal 0) arg).tree := rfl

theorem firstFault?_neg (arg : IntExpr) :
    (neg arg).firstFault? = (binary .sub (literal 0) arg).firstFault? := by
  have hfault : (neg arg).fault? = (binary .sub (literal 0) arg).fault? := rfl
  have hzero : (literal 0).firstFault? = none := rfl
  rw [firstFault?_binary, hzero, Option.none_or, ← hfault, firstFault?, parts, List.findSome?_append]
  simp [firstFault?]

theorem depth_pos : 0 < e.depth := by
  cases e with
  | literal n => exact Nat.one_pos
  | neg arg => exact Nat.succ_pos _
  | binary op left right => exact Nat.succ_pos _

end IntExpr

/-! ### Operations -/

theorem ArithOp.toInt64?_of_fits {n : Int} (h : Fits n) : toInt64? n = some (Int64.ofInt n) := by
  unfold Fits at h
  exact if_pos (by omega)

theorem ArithOp.toInt64?_of_not_fits {n : Int} (h : ¬ Fits n) : toInt64? n = none := by
  unfold Fits at h
  exact if_neg (by omega)

/-- An operation that is no division by zero gives its exact result, if this fits. -/
theorem ArithOp.onInts_eq_ok {op : ArithOp} {a b : Int64} (hzero : ¬ (op = .div ∧ b.toInt = 0))
    (hfits : Fits (op.exact a.toInt b.toInt)) :
    ∃ c, op.onInts a b = .ok c ∧ c.toInt = op.exact a.toInt b.toInt := by
  have hb : ¬ (op = .div ∧ b = 0) := by
    rintro ⟨hop, rfl⟩
    exact hzero ⟨hop, rfl⟩
  have hsome := toInt64?_of_fits hfits
  refine ⟨_, ?_, toInt_of_toInt64? hsome⟩
  rw [onInts, if_neg hb, hsome]

theorem ArithOp.onInts_div_zero {a b : Int64} (hb : b.toInt = 0) :
    ArithOp.div.onInts a b = .error .divisionByZero :=
  if_pos ⟨rfl, Int64.toInt_inj.1 hb⟩

theorem ArithOp.onInts_eq_overflow {op : ArithOp} {a b : Int64} (hzero : ¬ (op = .div ∧ b.toInt = 0))
    (hfits : ¬ Fits (op.exact a.toInt b.toInt)) : op.onInts a b = .error (.overflow op) := by
  have hb : ¬ (op = .div ∧ b = 0) := by
    rintro ⟨hop, rfl⟩
    exact hzero ⟨hop, rfl⟩
  rw [onInts, if_neg hb, toInt64?_of_not_fits hfits]

namespace Exec

variable {limit : Option Nat} {n : Nat} {left right : Node} {a b : Int64} {fault : RuntimeFault}
  {span span' : Span}

theorem arithmetic_ints (call : Call) (op : ArithOp) (a b : Int64) (span : Span) :
    arithmetic call op (.int a) (.int b) span =
      match op.onInts a b with
      | .ok c => pure (.int c)
      | .error f => raise f span := by
  cases op <;> rfl

theorem exec_arith_eq (limit : Option Nat) (n : Nat) (span : Span) (op : ArithOp) (left right : Node) :
    exec limit (n + 1) (.arith span op left right) = operands (exec limit n) left right fun v w =>
      arithmetic (callMethod limit (exec limit n)) op v w span :=
  rfl

/-- An operation on integers is carried out on them, and keeps the machine as it is. -/
theorem exec_arith (op : ArithOp) (hleft : exec limit n left = pure (.int a))
    (hright : exec limit n right = pure (.int b)) :
    exec limit (n + 1) (.arith span op left right) =
      match op.onInts a b with
      | .ok c => pure (.int c)
      | .error f => raise f span := by
  rw [exec_arith_eq, operands, hleft, hright]
  simp only [pure_bind]
  rw [arithmetic_ints]
  cases op.onInts a b <;> rfl

/-- An operation whose left operand fails is left at once. -/
theorem exec_arith_of_left (op : ArithOp) (hleft : exec limit n left = raise fault span') :
    exec limit (n + 1) (.arith span op left right) = raise fault span' := by
  rw [exec_arith_eq, operands, hleft]
  rfl

theorem exec_arith_of_right (op : ArithOp) (hleft : exec limit n left = pure (.int a))
    (hright : exec limit n right = raise fault span') :
    exec limit (n + 1) (.arith span op left right) = raise fault span' := by
  rw [exec_arith_eq, operands, hleft, hright]
  rfl

/-- What comes of an expression: its value, or what goes wrong first. -/
structure Computes (act : Exec Value) (e : IntExpr) : Prop where
  ok : e.firstFault? = none → ∃ v : Int64, v.toInt = e.value ∧ act = pure (.int v)
  fails : ∀ fault, e.firstFault? = some fault → act = raise fault {}

theorem onInts_of_values (op : ArithOp) {l r : IntExpr} (ha : a.toInt = l.value) (hb : b.toInt = r.value) :
    ((IntExpr.binary op l r).fault? = none →
      ∃ c, op.onInts a b = .ok c ∧ c.toInt = (IntExpr.binary op l r).value) ∧
      ∀ fault, (IntExpr.binary op l r).fault? = some fault → op.onInts a b = .error fault := by
  have hvalue : (IntExpr.binary op l r).value = op.exact a.toInt b.toInt := by
    rw [IntExpr.value_binary, ha, hb]
  rw [IntExpr.fault?, hvalue, ← hb]
  split
  · rename_i hzero
    obtain ⟨rfl, hzero⟩ := hzero
    refine ⟨nofun, ?_⟩
    rintro _ ⟨⟩
    exact ArithOp.onInts_div_zero hzero
  · rename_i hzero
    split
    · rename_i hfits
      exact ⟨fun _ => ArithOp.onInts_eq_ok hzero hfits, nofun⟩
    · rename_i hfits
      refine ⟨nofun, ?_⟩
      rintro _ ⟨⟩
      exact ArithOp.onInts_eq_overflow hzero hfits

/-- An operation computes its expression if its operands do theirs. -/
theorem Computes.binary (op : ArithOp) {l r : IntExpr} (hl : Computes (exec limit n l.tree) l)
    (hr : Computes (exec limit n r.tree) r) :
    Computes (exec limit (n + 1) (IntExpr.binary op l r).tree) (.binary op l r) := by
  have hfirst := IntExpr.firstFault?_binary op l r
  rw [IntExpr.tree]
  cases hleft : l.firstFault? with
  | some f =>
    rw [hleft, Option.some_or, Option.some_or] at hfirst
    refine ⟨fun h => absurd (hfirst.symm.trans h) nofun, fun fault h => ?_⟩
    cases hfirst.symm.trans h
    exact exec_arith_of_left op (hl.fails f hleft)
  | none =>
    obtain ⟨a, ha, hrunl⟩ := hl.ok hleft
    rw [hleft, Option.none_or] at hfirst
    cases hright : r.firstFault? with
    | some f =>
      rw [hright, Option.some_or] at hfirst
      refine ⟨fun h => absurd (hfirst.symm.trans h) nofun, fun fault h => ?_⟩
      cases hfirst.symm.trans h
      exact exec_arith_of_right op hrunl (hr.fails f hright)
    | none =>
      obtain ⟨b, hb, hrunr⟩ := hr.ok hright
      rw [hright, Option.none_or] at hfirst
      obtain ⟨hok, herror⟩ := onInts_of_values op ha hb
      rw [exec_arith op hrunl hrunr]
      refine ⟨fun h => ?_, fun fault h => ?_⟩
      · obtain ⟨c, hc, hvalue⟩ := hok (hfirst.symm.trans h)
        rw [hc]
        exact ⟨c, hvalue, rfl⟩
      · rw [herror fault (hfirst.symm.trans h)]

theorem computes_literal (limit : Option Nat) (hn : 0 < n) (k : Fin 0x8000000000000000) :
    Computes (exec limit n (IntExpr.literal k).tree) (.literal k) := by
  obtain ⟨n, rfl⟩ := Nat.exists_eq_succ_of_ne_zero (Nat.ne_of_gt hn)
  exact ⟨fun _ => ⟨Int64.ofNat k, Int64.toInt_ofNat_of_lt k.isLt, rfl⟩, nofun⟩

/-- A run of the tree of an expression computes it, and keeps the machine as it is. -/
theorem exec_tree (limit : Option Nat) {e : IntExpr} (hn : e.depth ≤ n) : Computes (exec limit n e.tree) e := by
  induction e generalizing n with
  | literal k => exact computes_literal limit hn k
  | neg arg ih =>
    obtain ⟨n, rfl⟩ := Nat.exists_eq_succ_of_ne_zero (Nat.ne_of_gt (Nat.lt_of_lt_of_le IntExpr.depth_pos hn))
    have harg : arg.depth ≤ n := Nat.le_of_succ_le_succ hn
    have hzero := computes_literal limit (Nat.lt_of_lt_of_le IntExpr.depth_pos harg) 0
    have hsub := hzero.binary .sub (ih harg)
    rw [IntExpr.tree_neg]
    exact ⟨fun h => hsub.ok ((IntExpr.firstFault?_neg arg).symm.trans h),
      fun fault h => hsub.fails fault ((IntExpr.firstFault?_neg arg).symm.trans h)⟩
  | binary op l r ihl ihr =>
    obtain ⟨n, rfl⟩ := Nat.exists_eq_succ_of_ne_zero (Nat.ne_of_gt (Nat.lt_of_lt_of_le IntExpr.depth_pos hn))
    have hboth : max l.depth r.depth ≤ n := Nat.le_of_succ_le_succ hn
    have hleft := ihl (Nat.le_trans (Nat.le_max_left _ _) hboth)
    exact hleft.binary op (ihr (Nat.le_trans (Nat.le_max_right _ _) hboth))

end Exec

end ClassScript

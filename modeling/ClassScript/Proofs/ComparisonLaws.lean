import ClassScript.Proofs.Calls
import Mathlib.Data.List.Lex

/-!
# Laws of comparison

Values of one primitive kind stand in a total order (`Value.Below`), and the six operators tell of it
without touching the machine.  Objects are asked: equality is one question to `__eq__` and the order one
to `__lt__` (`Exec.Asked`), and what is told apart by both asks the second only behind a first that does
not hold (`Exec.Compared`).  Whatever else is compared is an error.  Main statement:
`Exec.compare_lawful`.
-/

namespace ClassScript

/-! ### The order of primitive values -/

/-- The kinds of values. -/
inductive Kind where
  | none | bool | int | str | cls | obj
  deriving DecidableEq

/-- Whether values of this kind stand in an order. -/
def Kind.ordered : Kind → Bool
  | bool | int | str => true
  | none | cls | obj => false

namespace Value

/-- The kind of a value. -/
def kind : Value → Kind
  | none => .none
  | bool _ => .bool
  | int _ => .int
  | str _ => .str
  | cls _ => .cls
  | obj _ => .obj

/-- The order of primitive values: falsity before truth, integers by size, and texts lexicographically
by the code points of their characters. -/
inductive Below : Value → Value → Prop
  | bool : Below (bool false) (bool true)
  | int {a b : Int64} (h : a.toInt < b.toInt) : Below (int a) (int b)
  | str {s t : String} (h : s.toList.map Char.toNat < t.toList.map Char.toNat) : Below (str s) (str t)

theorem below_bool {a b : Bool} : Below (bool a) (bool b) ↔ a < b := by
  constructor
  · rintro ⟨⟩
    decide
  · intro h
    obtain ⟨rfl, rfl⟩ : a = false ∧ b = true := by
      revert h
      cases a <;> cases b <;> decide
    exact .bool

theorem below_int {a b : Int64} : Below (int a) (int b) ↔ a < b := by
  rw [Int64.lt_iff_toInt_lt]
  exact ⟨fun | .int h => h, .int⟩

/-- Characters compare as their code points do, and so do lists of them. -/
theorem below_str {s t : String} : Below (str s) (str t) ↔ s < t := by
  have hlex : ∀ l k : List Char, l.map Char.toNat < k.map Char.toNat ↔ l < k := by
    intro l k
    induction l generalizing k with
    | nil => cases k <;> simp
    | cons c l ih =>
      cases k with
      | nil => simp
      | cons d k =>
        rw [List.map_cons, List.map_cons, List.cons_lt_cons_iff, List.cons_lt_cons_iff, ih, Char.toNat_inj]
        rfl
  exact ⟨fun | .str h => (hlex _ _).1 h, fun h => .str ((hlex _ _).2 h)⟩

theorem Below.irrefl {a : Value} : ¬ Below a a := by
  intro h
  cases h with
  | int h => exact Int.lt_irrefl _ h
  | str h => exact lt_irrefl _ h

theorem Below.trans {a b c : Value} (hab : Below a b) (hbc : Below b c) : Below a c := by
  cases hab with
  | bool => cases hbc
  | int hab =>
    cases hbc with
    | int hbc => exact .int (Int.lt_trans hab hbc)
  | str hab =>
    cases hbc with
    | str hbc => exact .str (hab.trans hbc)

/-- Any two values of one primitive kind are equal, or one of them is below the other. -/
theorem below_or_eq_or_below {a b : Value} (hkind : a.kind = b.kind) (ho : a.kind.ordered = true) :
    Below a b ∨ a = b ∨ Below b a := by
  cases a with
  | bool a =>
    cases b with
    | bool b => cases a <;> cases b <;> first | exact .inr (.inl rfl) | exact .inl .bool | exact .inr (.inr .bool)
    | _ => cases hkind
  | int a =>
    cases b with
    | int b =>
      rcases Int.lt_trichotomy a.toInt b.toInt with h | h | h
      · exact .inl (.int h)
      · exact .inr (.inl (congrArg int (Int64.toInt_inj.1 h)))
      · exact .inr (.inr (.int h))
    | _ => cases hkind
  | str s =>
    cases b with
    | str t =>
      have hinj : Function.Injective (List.map Char.toNat) :=
        List.map_injective_iff.2 fun c d => Char.toNat_inj.1
      rcases lt_trichotomy (s.toList.map Char.toNat) (t.toList.map Char.toNat) with h | h | h
      · exact .inl (.str h)
      · exact .inr (.inl (congrArg str (String.toList_inj.1 (hinj h))))
      · exact .inr (.inr (.str h))
    | _ => cases hkind
  | _ => cases ho

theorem Below.asymm {a b : Value} (h : Below a b) : ¬ Below b a := fun h' => (h.trans h').irrefl

/-- A value is below another if it neither is the other nor stands above it. -/
theorem below_iff_not {a b : Value} (hkind : a.kind = b.kind) (ho : a.kind.ordered = true) :
    Below b a ↔ ¬ Below a b ∧ a ≠ b := by
  constructor
  · intro h
    refine ⟨h.asymm, ?_⟩
    rintro rfl
    exact h.irrefl
  · rintro ⟨hlt, hne⟩
    exact ((below_or_eq_or_below hkind ho).resolve_left hlt).resolve_left hne

end Value

/-- What a relational operator says of two primitive values. -/
def Comparator.Holds : Comparator → Value → Value → Prop
  | eq, a, b => a = b
  | ne, a, b => a ≠ b
  | lt, a, b => a.Below b
  | gt, a, b => b.Below a
  | le, a, b => a.Below b ∨ a = b
  | ge, a, b => b.Below a ∨ a = b

/-- The primitive comparison that an operator starts with. -/
def Comparator.primitive : Comparator → Comparator
  | eq | ne => eq
  | lt | gt | le | ge => lt

namespace Exec

section

variable (call : Call) (span : Span)

/-! ### Objects -/

/-- What comes of a question to the left one of two objects, for the primitive comparison `op`: the
method is called with the other object and its result counts as a condition.  If the object is gone, or
its class has no such method, nothing is called. -/
inductive Asked (method : String) (op : Comparator) (a : Handle) (b : Value) (m : Machine) :
    Except Signal Bool → Machine → Prop
  | released (ho : m.resolve a = none) :
      Asked method op a b m (.error (.error (.raised (.typeError .released) span))) m
  | missing {o : ObjId} (ho : m.resolve a = some o) (hmethod : m.heap.hasMethod o method 1 = false) :
      Asked method op a b m (.error (.error (.raised (.comparisonError
        (.missingMethod (m.heap.classOf o).name op method)) span))) m
  | answered {o : ObjId} {r : Except Signal Value} {m' : Machine} (ho : m.resolve a = some o)
      (hmethod : m.heap.hasMethod o method 1 = true)
      (hcall : call o method [b] span (m.told (.delegated (m.heap.classOf o).name method)) = (r, m')) :
      Asked method op a b m (r.map Value.truthy) m'

/-- What comes of comparing two objects, question by question. -/
inductive Compared (a : Handle) (b : Value) (m : Machine) :
    Comparator → Except Signal Bool → Machine → Prop
  | eq {r : Except Signal Bool} {m' : Machine} (h : Asked call span eqName .eq a b m r m') :
      Compared a b m .eq r m'
  | ne {r : Except Signal Bool} {m' : Machine} (h : Asked call span eqName .eq a b m r m') :
      Compared a b m .ne (r.map not) m'
  | lt {r : Except Signal Bool} {m' : Machine} (h : Asked call span ltName .lt a b m r m') :
      Compared a b m .lt r m'
  | ge {r : Except Signal Bool} {m' : Machine} (h : Asked call span ltName .lt a b m r m') :
      Compared a b m .ge (r.map not) m'
  /-- Without an answer to the first question there is no second one. -/
  | gtFailed {s : Signal} {m' : Machine} (h : Asked call span ltName .lt a b m (.error s) m') :
      Compared a b m .gt (.error s) m'
  | leFailed {s : Signal} {m' : Machine} (h : Asked call span ltName .lt a b m (.error s) m') :
      Compared a b m .le (.error s) m'
  /-- An object that is less is not asked again. -/
  | gtLess {m' : Machine} (h : Asked call span ltName .lt a b m (.ok true) m') :
      Compared a b m .gt (.ok false) m'
  | leLess {m' : Machine} (h : Asked call span ltName .lt a b m (.ok true) m') :
      Compared a b m .le (.ok true) m'
  /-- One that is not is asked whether it is equal. -/
  | gtNotLess {m₁ : Machine} {r : Except Signal Bool} {m' : Machine}
      (h : Asked call span ltName .lt a b m (.ok false) m₁)
      (he : Asked call span eqName .eq a b m₁ r m') : Compared a b m .gt (r.map not) m'
  | leNotLess {m₁ : Machine} {r : Except Signal Bool} {m' : Machine}
      (h : Asked call span ltName .lt a b m (.ok false) m₁)
      (he : Asked call span eqName .eq a b m₁ r m') : Compared a b m .le r m'

variable {call span}

section

variable {method : String} {op : Comparator} {a : Handle} {b : Value} {m : Machine}

/-- A comparison that is left to a method is a question. -/
theorem Asked.delegate_eq {r : Except Signal Bool} {m' : Machine}
    (h : Asked call span method op a b m r m') : delegate call span method op a b m = (r, m') := by
  rw [delegate, bind_apply, object_apply]
  cases h with
  | released ho => rw [ho]
  | missing ho hmethod =>
    rw [ho]
    show (if m.heap.hasMethod _ method 1 then _ else _ : Exec Bool) m = _
    rw [hmethod]
    rfl
  | @answered o r m' ho hmethod hcall =>
    rw [ho]
    show (if m.heap.hasMethod _ method 1 then _ else _ : Exec Bool) m = _
    rw [hmethod, if_pos rfl]
    show (call o method [b] span >>= fun v => pure v.truthy)
      (m.told (.delegated (m.heap.classOf o).name method)) = _
    rw [bind_apply, hcall]
    cases r <;> rfl

theorem exists_asked (call : Call) (span : Span) (method : String) (op : Comparator) (a : Handle)
    (b : Value) (m : Machine) : ∃ r m', Asked call span method op a b m r m' := by
  cases ho : m.resolve a with
  | none => exact ⟨_, _, .released ho⟩
  | some o =>
    cases hmethod : m.heap.hasMethod o method 1 with
    | false => exact ⟨_, _, .missing ho hmethod⟩
    | true => exact ⟨_, _, .answered ho hmethod rfl⟩

end

section

variable {op : Comparator} {a b : Handle} {m : Machine} {r : Except Signal Bool} {m' : Machine}

theorem greater_of_asked (h : Asked call span ltName .lt a (.obj b) m r m') :
    greater call span (.obj a) (.obj b) m =
      match r with
      | .ok false => (delegate call span eqName .eq a (.obj b) >>= fun e => pure !e) m'
      | .ok true => (.ok false, m')
      | .error s => (.error s, m') := by
  have hless : less call span (.obj a) (.obj b) = delegate call span ltName .lt a (.obj b) := rfl
  rw [greater, bind_apply, hless, h.delegate_eq]
  rcases r with s | l
  · rfl
  · cases l <;> rfl

/-- The negation of what comes of an action. -/
theorem not_of_eq {act : Exec Bool} (h : act m = (r, m')) :
    (act >>= fun e => pure !e) m = (r.map not, m') := by
  rw [bind_apply, h]
  cases r <;> rfl

theorem Compared.compare_eq (h : Compared call span a (.obj b) m op r m') :
    compare call span op (.obj a) (.obj b) m = (r, m') := by
  cases h with
  | eq h => exact h.delegate_eq
  | lt h => exact h.delegate_eq
  | ne h => exact not_of_eq h.delegate_eq
  | ge h => exact not_of_eq h.delegate_eq
  | gtFailed h => exact greater_of_asked h
  | gtLess h => exact greater_of_asked h
  | gtNotLess h he => exact (greater_of_asked h).trans (not_of_eq he.delegate_eq)
  | leFailed h => exact not_of_eq (greater_of_asked h)
  | leLess h => exact not_of_eq (greater_of_asked h)
  | @leNotLess m₁ r m' h he =>
    refine (not_of_eq ((greater_of_asked h).trans (not_of_eq he.delegate_eq))).trans ?_
    cases r with
    | error s => rfl
    | ok e => rw [Except.map, Except.map, Bool.not_not]

theorem exists_compared (call : Call) (span : Span) (op : Comparator) (a b : Handle) (m : Machine) :
    ∃ r m', Compared call span a (.obj b) m op r m' := by
  obtain ⟨re, me, he⟩ := exists_asked call span eqName .eq a (.obj b) m
  obtain ⟨rl, ml, hl⟩ := exists_asked call span ltName .lt a (.obj b) m
  obtain ⟨rn, mn, hn⟩ := exists_asked call span eqName .eq a (.obj b) ml
  cases op with
  | eq => exact ⟨_, _, .eq he⟩
  | ne => exact ⟨_, _, .ne he⟩
  | lt => exact ⟨_, _, .lt hl⟩
  | ge => exact ⟨_, _, .ge hl⟩
  | gt =>
    match rl, hl with
    | .error _, hl => exact ⟨_, _, .gtFailed hl⟩
    | .ok true, hl => exact ⟨_, _, .gtLess hl⟩
    | .ok false, hl => exact ⟨_, _, .gtNotLess hl hn⟩
  | le =>
    match rl, hl with
    | .error _, hl => exact ⟨_, _, .leFailed hl⟩
    | .ok true, hl => exact ⟨_, _, .leLess hl⟩
    | .ok false, hl => exact ⟨_, _, .leNotLess hl hn⟩

/-- Objects are compared by the questions that belong to the operator, and by nothing else. -/
theorem compare_obj_iff :
    compare call span op (.obj a) (.obj b) m = (r, m') ↔ Compared call span a (.obj b) m op r m' := by
  refine ⟨fun h => ?_, Compared.compare_eq⟩
  obtain ⟨r', m'', hc⟩ := exists_compared call span op a b m
  obtain ⟨rfl, rfl⟩ := Prod.mk.inj (h.symm.trans hc.compare_eq)
  exact hc

end

/-! ### Other values -/

section

variable {a b : Value} {m : Machine}

theorem equal_of_ordered (hkind : a.kind = b.kind) (ho : a.kind.ordered = true) :
    equal call span a b m = (.ok (decide (a = b)), m) := by
  cases a with
  | bool a =>
    cases b with
    | bool b => simp only [Value.bool.injEq]; rfl
    | _ => cases hkind
  | int a =>
    cases b with
    | int b => simp only [Value.int.injEq]; rfl
    | _ => cases hkind
  | str a =>
    cases b with
    | str b => simp only [Value.str.injEq]; rfl
    | _ => cases hkind
  | _ => cases ho

theorem less_of_ordered (hkind : a.kind = b.kind) (ho : a.kind.ordered = true) :
    ∃ l, less call span a b m = (.ok l, m) ∧ (l = true ↔ a.Below b) := by
  cases a with
  | bool a =>
    cases b with
    | bool b => exact ⟨_, rfl, decide_eq_true_iff.trans Value.below_bool.symm⟩
    | _ => cases hkind
  | int a =>
    cases b with
    | int b => exact ⟨_, rfl, decide_eq_true_iff.trans Value.below_int.symm⟩
    | _ => cases hkind
  | str a =>
    cases b with
    | str b => exact ⟨_, rfl, decide_eq_true_iff.trans Value.below_str.symm⟩
    | _ => cases hkind
  | _ => cases ho

/-- Primitive values of one kind are compared as they stand in their order. -/
theorem compare_of_ordered (op : Comparator) (hkind : a.kind = b.kind) (ho : a.kind.ordered = true) :
    ∃ r, compare call span op a b m = (.ok r, m) ∧ (r = true ↔ op.Holds a b) := by
  have he : equal call span a b m = (.ok (decide (a = b)), m) := equal_of_ordered hkind ho
  obtain ⟨l, hl, hbelow⟩ : ∃ l, less call span a b m = (.ok l, m) ∧ (l = true ↔ a.Below b) :=
    less_of_ordered hkind ho
  have hg : greater call span a b m = (.ok (!l && !decide (a = b)), m) := by
    rw [greater, bind_apply, hl]
    cases l with
    | true => rfl
    | false => exact not_of_eq he
  have hgreater := Value.below_iff_not hkind ho
  cases op with
  | eq => exact ⟨_, he, decide_eq_true_iff⟩
  | ne => exact ⟨_, not_of_eq he, by rw [Bool.not_eq_true', decide_eq_false_iff_not]; rfl⟩
  | lt => exact ⟨l, hl, hbelow⟩
  | gt =>
    refine ⟨_, hg, ?_⟩
    rw [Bool.and_eq_true, Bool.not_eq_true', Bool.not_eq_true', decide_eq_false_iff_not,
      ← Bool.not_eq_true, hbelow]
    exact hgreater.symm
  | le =>
    refine ⟨_, not_of_eq hg, ?_⟩
    rw [← Bool.not_or, Bool.not_not, Bool.or_eq_true, decide_eq_true_iff, hbelow]
    rfl
  | ge =>
    refine ⟨_, not_of_eq hl, ?_⟩
    rw [Bool.not_eq_true', ← Bool.not_eq_true, hbelow]
    show _ ↔ b.Below a ∨ a = b
    rw [hgreater]
    constructor
    · intro h
      by_cases heq : a = b
      · exact .inr heq
      · exact .inl ⟨h, heq⟩
    · rintro (h | rfl)
      · exact h.1
      · exact Value.Below.irrefl

theorem compare_of_less_failed {s : Signal} (h : less call span a b m = (.error s, m)) {op : Comparator}
    (hop : op.primitive = .lt) : compare call span op a b m = (.error s, m) := by
  have hg : greater call span a b m = (.error s, m) := by rw [greater, bind_apply, h]
  cases op with
  | lt => exact h
  | ge => exact not_of_eq h
  | gt => exact hg
  | le => exact not_of_eq hg
  | _ => cases hop

theorem compare_of_equal_failed {s : Signal} (h : equal call span a b m = (.error s, m)) {op : Comparator}
    (hop : op.primitive = .eq) : compare call span op a b m = (.error s, m) := by
  cases op with
  | eq => exact h
  | ne => exact not_of_eq h
  | _ => cases hop

/-- Values of different kinds do not go together, and the primitive comparison says so. -/
theorem compare_of_kind_ne (op : Comparator) (hkind : a.kind ≠ b.kind) :
    compare call span op a b m = (.error (.error (.raised
      (.typeError (.notComparable op.primitive (m.typeName a) (m.typeName b))) span)), m) := by
  have he : equal call span a b = mismatch span .eq a b := by
    cases a <;> cases b <;> first | rfl | exact absurd rfl hkind
  have hl : less call span a b = mismatch span .lt a b := by
    cases a <;> cases b <;> first | rfl | exact absurd rfl hkind
  cases hop : op.primitive with
  | eq => exact compare_of_equal_failed (congrFun he m) hop
  | lt => exact compare_of_less_failed (congrFun hl m) hop
  | _ => cases op <;> cases hop

end

/-- How values compare, for a way to call methods and a node that compares. -/
structure Lawful (call : Call) (span : Span) : Prop where
  /-- Primitive values of one kind are compared at once, and each operator says how they stand. -/
  primitive : ∀ (op : Comparator) {a b : Value} (m : Machine), a.kind = b.kind → a.kind.ordered = true →
    ∃ r, compare call span op a b m = (.ok r, m) ∧ (r = true ↔ op.Holds a b)
  /-- They stand in exactly one of three ways. -/
  exactlyOne : ∀ {a b : Value}, a.kind = b.kind → a.kind.ordered = true →
    (a.Below b ∧ a ≠ b ∧ ¬ b.Below a) ∨ (¬ a.Below b ∧ a = b ∧ ¬ b.Below a) ∨
      (¬ a.Below b ∧ a ≠ b ∧ b.Below a)
  transitive : ∀ {a b c : Value}, a.Below b → b.Below c → a.Below c
  /-- Values of different kinds are not compared at all. -/
  mismatched : ∀ (op : Comparator) {a b : Value} (m : Machine), a.kind ≠ b.kind →
    compare call span op a b m = (.error (.error (.raised
      (.typeError (.notComparable op.primitive (m.typeName a) (m.typeName b))) span)), m)
  /-- Nothing equals nothing, and there is no order of it. -/
  none_eq : ∀ m, compare call span .eq .none .none m = (.ok true, m)
  none_ne : ∀ m, compare call span .ne .none .none m = (.ok false, m)
  none_unordered : ∀ {op : Comparator} (m : Machine), op.primitive = .lt →
    compare call span op .none .none m =
      (.error (.error (.raised (.comparisonError (.unordered .lt)) span)), m)
  /-- Classes have neither an order nor equality. -/
  classes : ∀ (op : Comparator) (c d : ClassId) (m : Machine),
    compare call span op (.cls c) (.cls d) m =
      (.error (.error (.raised (.comparisonError (.unordered op.primitive)) span)), m)
  /-- Objects are compared by the questions that belong to the operator. -/
  objects : ∀ (op : Comparator) (a b : Handle) (m : Machine) (r : Except Signal Bool) (m' : Machine),
    compare call span op (.obj a) (.obj b) m = (r, m') ↔ Compared call span a (.obj b) m op r m'

/-- Comparisons obey their laws, however methods are called. -/
theorem compare_lawful (call : Call) (span : Span) : Lawful call span where
  primitive op _ _ _ hkind ho := compare_of_ordered op hkind ho
  exactlyOne hkind ho := by
    rcases Value.below_or_eq_or_below hkind ho with h | rfl | h
    · exact .inl ⟨h, fun heq => (heq ▸ h).irrefl, h.asymm⟩
    · exact .inr (.inl ⟨Value.Below.irrefl, rfl, Value.Below.irrefl⟩)
    · exact .inr (.inr ⟨h.asymm, fun heq => (heq ▸ h).irrefl, h⟩)
  transitive := .trans
  mismatched op _ _ _ hkind := compare_of_kind_ne op hkind
  none_eq _ := rfl
  none_ne _ := rfl
  none_unordered _ hop := compare_of_less_failed rfl hop
  classes op c d m := by
    cases hop : op.primitive with
    | eq => exact compare_of_equal_failed rfl hop
    | lt => exact compare_of_less_failed rfl hop
    | _ => cases op <;> cases hop
  objects _ _ _ _ _ _ := compare_obj_iff

/-- An object that is not less and cannot tell whether it is equal: the second question fails. -/
theorem compare_lawful_unequal :
    let answer : Node := .methodBody {} (.ret {} (.literal {} (.bool false)))
    let only : ClassDecl := ⟨⟨0, "Only"⟩, none, [⟨ltName, ["other"], answer⟩]⟩
    let m : Machine := { heap := (({} : Heap).addClasses [only]).allocate only.id }
    ∃ m', Compared (callMethod none (exec none 4)) {} (.owned 0) (.obj (.owned 0)) m .gt
      (.error (.error (.raised (.comparisonError (.missingMethod "Only" .eq eqName)) {}))) m' ∧
        m'.trace = #[.delegated "Only" ltName, .enter "Only" ltName 1, .leave] := by
  intro answer only m
  exact ⟨_, ((compare_lawful (callMethod none (exec none 4)) {}).objects .gt _ _ m _ _).1 rfl, rfl⟩

end

end Exec

end ClassScript

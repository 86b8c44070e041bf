import ClassScript.Run.Congruence

/-!
# Fuel

Fuel decides only whether a run ends in time.  `Below a b` says that `b` does what `a` does wherever
`a` does not run out of fuel.  This is a congruence, hence every step of execution keeps it.  Main
statement: a run that ends is the same with more fuel (`exec_of_le`).
-/

namespace ClassScript.Exec

variable {α : Type}

/-- Wherever `a` does not run out of fuel, `b` does the same. -/
def Below (a b : Exec α) : Prop := ∀ m, (a m).1 ≠ .error .exhausted → b m = a m

theorem below_iff_unless {a b : Exec α} : Below a b ↔ Unless (· = .exhausted) a b := by
  constructor
  · exact fun h m hm => h m fun hs => hm _ hs rfl
  · intro h m hm
    exact h m fun s hs hbad => hm (hbad ▸ hs)

theorem Below.refl (a : Exec α) : Below a a := fun _ _ => rfl

theorem Below.trans {a b c : Exec α} (h : Below a b) (h' : Below b c) : Below a c := by
  intro m hm
  rw [h' m (by rwa [h m hm]), h m hm]

theorem below_eq_unless : (Below : Exec α → Exec α → Prop) = Unless (· = .exhausted) :=
  funext fun _ => funext fun _ => propext below_iff_unless

theorem unless_congruence : Congruence fun _ => Unless (· = .exhausted) := Unless.congruence fun v span => by simp

theorem Below.congruence : Congruence fun _ => Below := by
  simpa only [below_eq_unless] using unless_congruence

/-! ### More fuel -/

theorem exec_text_succ (limit : Option Nat) (n : Nat) :
    (∀ node, Unless (· = .exhausted) (exec limit n node) (exec limit (n + 1) node)) ∧
      ∀ span v, Unless (· = .exhausted) (text limit n span v) (text limit (n + 1) span v) := by
  induction n with
  | zero =>
    exact ⟨fun _ => .throw .exhausted (by rfl) _, fun _ _ => .throw .exhausted (by rfl) _⟩
  | succ n ih =>
    have hs : Related (fun _ => Unless (· = .exhausted)) (callMethod limit (exec limit n))
        (callMethod limit (exec limit (n + 1))) (exec limit n) (exec limit (n + 1)) (text limit n)
        (text limit (n + 1)) :=
      ⟨.callMethod (by simp) limit ih.1, ih.1, ih.2⟩
    exact ⟨unless_congruence.execOver hs, unless_congruence.textOver hs⟩

/-- Whatever ends with some fuel ends in the same way with more. -/
theorem exec_of_le (limit : Option Nat) {n k : Nat} (h : n ≤ k) (node : Node) :
    Below (exec limit n node) (exec limit k node) := by
  induction h with
  | refl => exact .refl _
  | step _ ih => exact ih.trans (below_iff_unless.2 ((exec_text_succ limit _).1 node))

end ClassScript.Exec

import ClassScript.Proofs.Grammar
import ClassScript.Syntax.Program

/-!
# Runs of readers

What the readers of tokens do, told by the kinds of the tokens left.  For each of them there is an
equation for all runs, or for those that succeed; nothing behind this module opens one of them.
-/

namespace ClassScript

open Grammar

namespace Reading

/-- The kinds of the tokens left. -/
def kinds (s : Reading) : List TokenKind := s.rest.map Token.kind

/-- The class names at a place of the text. -/
def names (s : Reading) : ClassNames := ⟨{x | s.declares x = true}, {x | s.finishes x = true}⟩

theorem ahead_kind (s : Reading) (n : Nat) : (s.ahead n).kind = s.kinds[n]?.getD .eof := by
  simp only [ahead, kinds, List.getElem?_map]
  cases s.rest[n]? <;> rfl

@[simp] theorem kinds_advance (s : Reading) : s.advance.kinds = s.kinds.tail := by
  unfold advance kinds
  cases h : s.rest <;> simp [h]

@[simp] theorem unit_advance (s : Reading) : s.advance.unit = s.unit := by
  unfold advance
  split <;> rfl

@[simp] theorem declared_advance (s : Reading) : s.advance.declared = s.declared := by
  unfold advance
  split <;> rfl

theorem next_kind_of_cons {s : Reading} {k : TokenKind} {w : List TokenKind}
    (h : s.kinds = k :: w) : s.next.kind = k := by
  rw [next, ahead_kind, h]
  rfl

theorem kinds_of_next_kind {s : Reading} {k : TokenKind} (h : s.next.kind = k) (hk : k ≠ .eof) :
    s.kinds = k :: s.advance.kinds := by
  rw [next, ahead_kind] at h
  rw [kinds_advance]
  cases hs : s.kinds with
  | nil =>
    rw [hs] at h
    exact absurd h.symm hk
  | cons l w =>
    rw [hs] at h
    rw [List.tail_cons, ← h]
    rfl

theorem next_kind_ne_of_cons {s : Reading} {k l : TokenKind} {w : List TokenKind}
    (h : s.kinds = l :: w) (hk : l ≠ k) : s.next.kind ≠ k := by
  rwa [next_kind_of_cons h]

theorem names_congr {s t : Reading} (h : t.declared = s.declared) : t.names = s.names := by
  simp only [names, declares, finishes, h]

end Reading

namespace Parser

variable {α β : Type}

/-! ### Putting readers together -/

theorem bind_of_ok {p : Parser α} {f : α → Parser β} {s s' : Reading} {a : α}
    (h : p s = .ok (a, s')) : (p >>= f) s = f a s' := by
  change (p s >>= fun x => f x.1 x.2) = _
  rw [h]
  rfl

theorem bind_eq_ok {p : Parser α} {f : α → Parser β} {s s'' : Reading} {b : β} :
    (p >>= f) s = .ok (b, s'') ↔ ∃ a s', p s = .ok (a, s') ∧ f a s' = .ok (b, s'') := by
  change (p s >>= fun x => f x.1 x.2) = _ ↔ _
  cases h : p s with
  | error e =>
    constructor
    · intro h'
      cases h'
    · rintro ⟨a, s', h', -⟩
      cases h'
  | ok x =>
    obtain ⟨a, s'⟩ := x
    constructor
    · intro h'
      exact ⟨a, s', rfl, h'⟩
    · rintro ⟨a', t, h', h''⟩
      cases h'
      exact h''

theorem pure_eq_ok {a b : α} {s s' : Reading} :
    (pure a : Parser α) s = .ok (b, s') ↔ b = a ∧ s' = s := by
  change Except.ok (a, s) = _ ↔ _
  constructor
  · intro h
    cases h
    exact ⟨rfl, rfl⟩
  · rintro ⟨rfl, rfl⟩
    rfl

/-! ### Single tokens -/

theorem nextIs_run (k : TokenKind) (s : Reading) :
    nextIs k s = .ok (decide (s.next.kind = k), s) := rfl

theorem peek_run (s : Reading) : peek s = .ok (s.next, s) := rfl

theorem peekSecond_run (s : Reading) : peekSecond s = .ok (s.ahead 1, s) := rfl

theorem skip_run (s : Reading) : skip s = .ok ((), s.advance) := rfl

theorem spanFrom_run (start : Span) (s : Reading) :
    spanFrom start s = .ok (start.merge s.last, s) := rfl

theorem modify_run (f : Reading → Reading) (s : Reading) :
    (modify f : Parser Unit) s = .ok ((), f s) := rfl

theorem accept_run (k : TokenKind) (s : Reading) :
    accept k s = if s.next.kind = k then .ok (true, s.advance) else .ok (false, s) := by
  unfold accept
  rw [bind_of_ok (nextIs_run k s)]
  by_cases h : s.next.kind = k
  · simp only [h, decide_true, if_true]
    rfl
  · simp only [h, decide_false, if_false]
    rfl

theorem accept_of_next {k : TokenKind} {s : Reading} (h : s.next.kind = k) :
    accept k s = .ok (true, s.advance) := by
  rw [accept_run, if_pos h]

theorem accept_of_ne {k : TokenKind} {s : Reading} (h : s.next.kind ≠ k) :
    accept k s = .ok (false, s) := by
  rw [accept_run, if_neg h]

theorem expect_of_next {k : TokenKind} {s : Reading} (h : s.next.kind = k) :
    expect k s = .ok ((), s.advance) := by
  unfold expect
  rw [bind_of_ok (accept_of_next h)]
  rfl

theorem expect_eq_ok {k : TokenKind} {s s' : Reading} {u : Unit} :
    expect k s = .ok (u, s') ↔ s.next.kind = k ∧ s' = s.advance := by
  by_cases h : s.next.kind = k
  · rw [expect_of_next h]
    constructor
    · intro h'
      cases h'
      exact ⟨h, rfl⟩
    · rintro ⟨-, rfl⟩
      rfl
  · unfold expect
    rw [bind_of_ok (accept_of_ne h)]
    constructor
    · intro h'
      cases h'
    · rintro ⟨h', -⟩
      exact absurd h' h

theorem expectName_of_next {x : String} {s : Reading} (h : s.next.kind = .name x) :
    expectName s = .ok (x, s.advance) := by
  unfold expectName
  rw [bind_of_ok (peek_run s)]
  simp only [h]
  rfl

theorem expectName_eq_ok {x : String} {s s' : Reading} :
    expectName s = .ok (x, s') ↔ s.next.kind = .name x ∧ s' = s.advance := by
  constructor
  · intro h
    unfold expectName at h
    rw [bind_of_ok (peek_run s)] at h
    cases hk : s.next.kind with
    | name y =>
      rw [hk] at h
      cases h
      exact ⟨rfl, rfl⟩
    | _ =>
      rw [hk] at h
      cases h
  · rintro ⟨h, rfl⟩
    exact expectName_of_next h

end Parser

end ClassScript

import ClassScript.Proofs.Indexed
import ClassScript.Proofs.Reading

/-!
# Places of readers

A position of a list of tokens and a reading of the tokens in front of its first end mark may be the same place
(`Meets`).  A reader by index follows one of lists if from the same place both come to the same place with the
same result, or fail alike, and no index is looked at that lies behind the end mark (`Follows`).  There is a rule
for each way to put readers together.
-/

namespace ClassScript

/-- The tokens of a program, cut at their first end mark. -/
structure Listing where
  unit : Nat
  /-- The tokens in front of the end mark. -/
  front : List Token
  /-- The place of the end mark. -/
  mark : Span
  back : List Token
  front_ne : ∀ t ∈ front, t.kind ≠ .eof

/-- All tokens of a program. -/
def Listing.tokens (L : Listing) : List Token := L.front ++ ⟨.eof, L.mark⟩ :: L.back

def Listing.list (L : Listing) : TokenList := ⟨L.unit, L.tokens⟩

/-- The position behind the next token. -/
def Position.step (c : Position) : Position :=
  { c with current := c.current + 1, furthest := max c.furthest (c.current + 1) }

/-- The position where a token has been looked at. -/
def Position.see (c : Position) (i : Nat) : Position := { c with furthest := max c.furthest i }

namespace Indexed

open TokenList

variable {α β : Type} {L : Listing} {c c' c'' : Position} {s s' : Reading}

/-! ### Runs -/

theorem bind_of_ok {p : Indexed α} {f : α → Indexed β} {a : α} (h : p c = some (.ok a, c')) :
    (p >>= f) c = f a c' := by
  show ((p c).bind fun x => ExceptT.bindCont f x.1 x.2) = _
  rw [h]
  rfl

theorem bind_of_error {p : Indexed α} {f : α → Indexed β} {e : Halt} (h : p c = some (.error e, c')) :
    (p >>= f) c = some (.error e, c') := by
  show ((p c).bind fun x => ExceptT.bindCont f x.1 x.2) = _
  rw [h]
  rfl

theorem look_run {i : Nat} {t : Token} (h : L.tokens[i]? = some t) (c : Position) :
    L.list.look i c = some (.ok t, c.see i) := by
  have hlist : L.list.tokens[i]? = some t := h
  unfold look
  rw [hlist]
  rfl

/-! ### The same place -/

/-- A position of a program and a reading of it are the same place, and nothing behind the first end mark has
been looked at. -/
structure Meets (L : Listing) (c : Position) (s : Reading) : Prop where
  unit_eq : s.unit = L.unit
  rest : s.rest = L.front.drop c.current
  current_le : c.current ≤ L.front.length
  current_le_furthest : c.current ≤ c.furthest
  furthest_le : c.furthest ≤ L.front.length
  last : L.tokens[c.current - 1]?.map Token.span = some s.last
  final : s.final = L.mark
  declared : s.declared = c.declared

theorem getElem?_front {i : Nat} (h : i < L.front.length) : L.tokens[i]? = L.front[i]? :=
  List.getElem?_append_left h

theorem getElem?_mark : L.tokens[L.front.length]? = some ⟨.eof, L.mark⟩ := by
  rw [Listing.tokens, List.getElem?_append_right (le_refl _), Nat.sub_self]
  rfl

/-- In front of a token that is no end mark some token is left. -/
theorem exists_rest_eq_cons (hk : s.next.kind ≠ .eof) : ∃ t rest, s.rest = t :: rest := by
  refine List.exists_cons_of_ne_nil fun hnil => hk ?_
  rw [Reading.next, Reading.ahead, hnil]
  rfl

namespace Meets

/-- Up to the end mark the tokens ahead are those of the list. -/
theorem getElem?_ahead (h : Meets L c s) {n : Nat} (hn : c.current + n ≤ L.front.length) :
    L.tokens[c.current + n]? = some (s.ahead n) := by
  rw [Reading.ahead, h.rest, List.getElem?_drop, h.final]
  rcases Nat.lt_or_eq_of_le hn with hlt | heq
  · rw [getElem?_front hlt, List.getElem?_eq_getElem hlt]
    rfl
  · rw [heq, getElem?_mark, List.getElem?_eq_none (le_refl _)]
    rfl

theorem length_rest (h : Meets L c s) : s.rest.length = L.front.length - c.current := by
  rw [h.rest, List.length_drop]

theorem current_lt (h : Meets L c s) (hk : s.next.kind ≠ .eof) : c.current < L.front.length := by
  obtain ⟨t, rest, hrest⟩ := exists_rest_eq_cons hk
  by_contra hge
  have hnil : s.rest = [] := h.rest.trans (List.drop_eq_nil_of_le (not_lt.1 hge))
  rw [hrest] at hnil
  cases hnil

/-- Behind the next token both are the same place again. -/
theorem step (h : Meets L c s) (hk : s.next.kind ≠ .eof) : Meets L c.step s.advance := by
  have hlt := h.current_lt hk
  have hnext := h.getElem?_ahead (n := 0) hlt.le
  obtain ⟨t, rest, hrest⟩ := exists_rest_eq_cons hk
  have hadvance : s.advance = { s with last := t.span, rest := rest } := by rw [Reading.advance, hrest]
  rw [hadvance]
  refine ⟨h.unit_eq, ?_, hlt, Nat.le_max_right _ _, Nat.max_le.2 ⟨h.furthest_le, hlt⟩, ?_, h.final, h.declared⟩
  · show rest = L.front.drop (c.current + 1)
    rw [← List.tail_drop, ← h.rest, hrest, List.tail_cons]
  · show L.tokens[c.current + 1 - 1]?.map Token.span = some t.span
    rw [Nat.add_sub_cancel, ← Nat.add_zero c.current, hnext, Reading.ahead, hrest]
    rfl

/-! ### Single tokens -/

theorem peek_run (h : Meets L c s) : L.list.peek c = some (.ok s.next, c) := by
  have hlook := look_run (h.getElem?_ahead (n := 0) h.current_le) c
  rwa [Nat.add_zero, Position.see, Nat.max_eq_left h.current_le_furthest] at hlook

theorem previous_run (h : Meets L c s) : ∃ t, L.list.previous c = some (.ok t, c) ∧ t.span = s.last := by
  obtain ⟨t, ht, hspan⟩ := Option.map_eq_some_iff.1 h.last
  have hlook := look_run ht c
  rw [Position.see, Nat.max_eq_left ((Nat.sub_le _ _).trans h.current_le_furthest)] at hlook
  exact ⟨t, hlook, hspan⟩

theorem atEnd_run (h : Meets L c s) : L.list.atEnd c = some (.ok (decide (s.next.kind = .eof)), c) := by
  unfold atEnd
  rw [bind_of_ok h.peek_run]
  rfl

theorem advance_run (h : Meets L c s) (hk : s.next.kind ≠ .eof) :
    L.list.advance c = some (.ok s.next, c.step) := by
  have hnext := h.getElem?_ahead (n := 0) h.current_le
  have hlook : L.list.previous c.step = some (.ok s.next, c.step.see c.current) := look_run hnext c.step
  have hsee : c.step.see c.current = c.step := by
    rw [Position.see, Nat.max_eq_left]
    exact (Nat.le_succ _).trans (Nat.le_max_right _ _)
  unfold advance
  rw [bind_of_ok h.atEnd_run, decide_eq_false hk, if_neg Bool.false_ne_true]
  show L.list.previous c.step = _
  rw [hlook, hsee]

theorem advance_of_eof (h : Meets L c s) (hk : s.next.kind = .eof) :
    L.list.advance c = some (.ok s.next, c) := by
  unfold advance
  rw [bind_of_ok h.atEnd_run, decide_eq_true hk, if_pos rfl]
  exact h.peek_run

theorem check_run (h : Meets L c s) {k : TokenKind} (hk : k ≠ .eof) :
    L.list.check k c = some (.ok (decide (s.next.kind = k)), c) := by
  unfold check
  rw [bind_of_ok h.atEnd_run]
  by_cases hend : s.next.kind = .eof
  · rw [decide_eq_true hend, if_pos rfl, hend, decide_eq_false hk.symm]
    rfl
  · rw [decide_eq_false hend, if_neg Bool.false_ne_true, bind_of_ok h.peek_run]
    rfl

theorem accept_of_next (h : Meets L c s) {k : TokenKind} (hk : k ≠ .eof) (hnext : s.next.kind = k) :
    L.list.accept k c = some (.ok true, c.step) := by
  unfold accept
  rw [bind_of_ok (h.check_run hk), decide_eq_true hnext, if_pos rfl, bind_of_ok (h.advance_run (hnext ▸ hk))]
  rfl

theorem accept_of_ne (h : Meets L c s) {k : TokenKind} (hk : k ≠ .eof) (hnext : s.next.kind ≠ k) :
    L.list.accept k c = some (.ok false, c) := by
  unfold accept
  rw [bind_of_ok (h.check_run hk), decide_eq_false hnext, if_neg Bool.false_ne_true]
  rfl

theorem expect_of_next (h : Meets L c s) {k : TokenKind} (hk : k ≠ .eof) (hnext : s.next.kind = k) :
    L.list.expect k c = some (.ok (), c.step) := by
  unfold expect
  rw [bind_of_ok (h.check_run hk), decide_eq_true hnext, if_pos rfl, bind_of_ok (h.advance_run (hnext ▸ hk))]
  rfl

theorem expectName_of_next (h : Meets L c s) {x : String} (hx : s.next.kind = .name x) :
    L.list.expectName c = some (.ok x, c.step) := by
  unfold expectName
  rw [bind_of_ok h.peek_run]
  simp only [hx]
  rw [bind_of_ok (h.advance_run (by rw [hx]; nofun))]
  rfl

end Meets

/-! ### Readers that follow one another -/

/-- How a position changes in a run: the furthest index grows, up to the end mark at most.  The classes stay the
same where `keep` asks for it. -/
structure Moved (L : Listing) (keep : Prop) (c c' : Position) : Prop where
  grows : c.furthest ≤ c'.furthest
  furthest_le : c'.furthest ≤ L.front.length
  current_le : c'.current ≤ c'.furthest
  declared : keep → c'.declared = c.declared

/-- The outcomes of two runs from the same place are alike, and if they succeed, `k` tokens at least are taken. -/
inductive Outcome (L : Listing) (keep : Prop) (k : Nat) (c : Position) (s : Reading) :
    Option (Except Halt α × Position) → Except SyntaxError (α × Reading) → Prop
  | ok {a : α} {c' : Position} {s' : Reading} (moved : Moved L keep c c') (meets : Meets L c' s')
    (taken : s'.rest.length + k ≤ s.rest.length) : Outcome L keep k c s (some (.ok a, c')) (.ok (a, s'))
  | error {e : SyntaxError} {c' : Position} (moved : Moved L keep c c')
    (target : e.fault ≠ .invalidAssignmentTarget) :
    Outcome L keep k c s (some (.error (.fault e), c')) (.error e)

/-- Where at most `n` tokens are left, the one reader does by index what the other one does with a list. -/
def Follows (L : Listing) (keep : Prop) (k n : Nat) (p : Indexed α) (q : Parser α) : Prop :=
  ∀ ⦃c s⦄, Meets L c s → s.rest.length ≤ n → Outcome L keep k c s (p c) (q s)

/-- The same where the next token is `t`. -/
def FollowsAt (L : Listing) (t : Token) (keep : Prop) (k n : Nat) (p : Indexed α) (q : Parser α) : Prop :=
  ∀ ⦃c s⦄, Meets L c s → s.next = t → s.rest.length ≤ n → Outcome L keep k c s (p c) (q s)

variable {keep : Prop} {j k n : Nat}

theorem Meets.moved (h : Meets L c s) : Moved L keep c c :=
  ⟨le_refl _, h.furthest_le, h.current_le_furthest, fun _ => rfl⟩

theorem Moved.trans (h : Moved L keep c c') (h' : Moved L keep c' c'') : Moved L keep c c'' :=
  ⟨h.grows.trans h'.grows, h'.furthest_le, h'.current_le, fun hk => (h'.declared hk).trans (h.declared hk)⟩

/-- A token that is no farther than the end mark may be looked at from where it is. -/
theorem Meets.peekAhead_run (h : Meets L c s) (keep : Prop) {n : Nat} (hn : n ≤ s.rest.length) :
    ∃ c', L.list.peekAhead n c = some (.ok (s.ahead n), c') ∧ Meets L c' s ∧ Moved L keep c c' := by
  have hi : c.current + n ≤ L.front.length := by
    have hlen := h.length_rest
    have hle := h.current_le
    omega
  have hmin : min (c.current + n) (L.tokens.length - 1) = c.current + n := by
    refine Nat.min_eq_left ?_
    simp only [Listing.tokens, List.length_append, List.length_cons]
    omega
  have hrun : L.list.peekAhead n c = some (.ok (s.ahead n), c.see (c.current + n)) := by
    show L.list.look (min (c.current + n) (L.tokens.length - 1)) c = _
    rw [hmin]
    exact look_run (h.getElem?_ahead hi) c
  have hcurrent : c.current ≤ max c.furthest (c.current + n) := h.current_le_furthest.trans (Nat.le_max_left _ _)
  have hfurthest : max c.furthest (c.current + n) ≤ L.front.length := Nat.max_le.2 ⟨h.furthest_le, hi⟩
  exact ⟨_, hrun, { h with current_le_furthest := hcurrent, furthest_le := hfurthest },
    ⟨Nat.le_max_left _ _, hfurthest, hcurrent, fun _ => rfl⟩⟩

theorem Meets.moved_step (h : Meets L c s) (hk : s.next.kind ≠ .eof) : Moved L keep c c.step :=
  ⟨Nat.le_max_left _ _, (h.step hk).furthest_le, Nat.le_max_right _ _, fun _ => rfl⟩

theorem length_advance {s : Reading} (hk : s.next.kind ≠ .eof) :
    s.advance.rest.length + 1 = s.rest.length := by
  obtain ⟨t, rest, hrest⟩ := exists_rest_eq_cons hk
  rw [Reading.advance, hrest]
  rfl

/-- What follows from a place that has been come to follows from where the run began. -/
theorem Outcome.trans {r : Option (Except Halt α × Position)} {r' : Except SyntaxError (α × Reading)}
    (h : Outcome L keep j c' s' r r') (moved : Moved L keep c c')
    (taken : s'.rest.length + k ≤ s.rest.length + j) : Outcome L keep k c s r r' := by
  cases h with
  | ok hmoved meets htaken => exact .ok (moved.trans hmoved) meets (by omega)
  | error hmoved target => exact .error (moved.trans hmoved) target

theorem Moved.free (h : Moved L True c c') : Moved L keep c c' :=
  ⟨h.grows, h.furthest_le, h.current_le, fun _ => h.declared trivial⟩

theorem Outcome.free {r : Option (Except Halt α × Position)} {r' : Except SyntaxError (α × Reading)}
    (h : Outcome L True k c s r r') : Outcome L keep k c s r r' := by
  cases h with
  | ok moved meets taken => exact .ok moved.free meets taken
  | error moved target => exact .error moved.free target

namespace Follows

variable {p p' : Indexed α} {q q' : Parser α} {f : α → Indexed β} {g : α → Parser β}

theorem free (h : Follows L True k n p q) : Follows L keep k n p q := fun _ _ hm hn => (h hm hn).free

/-- Where fewer tokens are left the readers follow one another all the same. -/
theorem fewer (h : Follows L keep k n p q) {i : Nat} (hi : i ≤ n) : Follows L keep k i p q :=
  fun _ _ hm hn => h hm (hn.trans hi)

/-- How many tokens are taken need not be told. -/
theorem any (h : Follows L keep k n p q) : Follows L keep 0 n p q := fun _ _ hm hn =>
  (h hm hn).trans hm.moved (by omega)

/-- Two readers one behind the other.  The second one may rely on what the first one gives in some run. -/
theorem andThen (hp : Follows L keep j n p q) {i : Nat}
    (hf : ∀ a, (∃ s s', q s = .ok (a, s')) → Follows L keep i (n - j) (f a) (g a)) (hk : k ≤ j + i) :
    Follows L keep k n (p >>= f) (q >>= g) := by
  intro c s hm hn
  have hrun := hp hm hn
  generalize hpc : p c = r at hrun
  generalize hqs : q s = r' at hrun
  cases hrun with
  | ok moved meets taken =>
    rw [bind_of_ok hpc, Parser.bind_of_ok hqs]
    exact (hf _ ⟨_, _, hqs⟩ meets (by omega)).trans moved (by omega)
  | error moved target =>
    rw [bind_of_error hpc, show (q >>= g) s = (q s >>= fun x => g x.1 x.2) from rfl, hqs]
    exact .error moved target

theorem bind (hp : Follows L keep 0 n p q) (hf : ∀ a, Follows L keep k n (f a) (g a)) :
    Follows L keep k n (p >>= f) (q >>= g) := hp.andThen (fun a _ => hf a) (by omega)

/-- Behind a reader that takes a token one fewer is left. -/
theorem step (hp : Follows L keep 1 n p q) (hf : ∀ a, Follows L keep (k - 1) (n - 1) (f a) (g a)) :
    Follows L keep k n (p >>= f) (q >>= g) := hp.andThen (fun a _ => hf a) (by omega)

theorem pure (a : α) : Follows L keep 0 n (pure a) (pure a) := fun _ _ hm _ => .ok hm.moved hm (le_refl _)

theorem throw {e : SyntaxError} (h : e.fault ≠ .invalidAssignmentTarget) :
    Follows L keep k n (throw (.fault e) : Indexed α) (throw e) := fun _ _ hm _ => .error hm.moved h

theorem unexpected (expected : String) (t : Token) :
    Follows L keep k n (Indexed.unexpected expected t : Indexed α) (Parser.unexpected expected t) := throw nofun

theorem ite {P : Prop} [Decidable P] (yes : Follows L keep k n p q) (no : Follows L keep k n p' q') :
    Follows L keep k n (if P then p else p') (if P then q else q') := by
  split
  · exact yes
  · exact no

theorem at_next (h : Follows L keep k n p q) (t : Token) : FollowsAt L t keep k n p q :=
  fun _ _ hm _ hn => h hm hn

/-! ### Single tokens -/

theorem peek : Follows L keep 0 n L.list.peek Parser.peek := fun c s hm _ => by
  rw [hm.peek_run, Parser.peek_run]
  exact .ok hm.moved hm (le_refl _)

/-- Looking at the next token changes nothing. -/
theorem peek_left {f : Token → Indexed β} {q : Parser β} (h : ∀ t, Follows L keep k n (f t) q) :
    Follows L keep k n (L.list.peek >>= f) q := by
  intro c s hm hn
  rw [bind_of_ok hm.peek_run]
  exact h _ hm hn

/-- What is done next may depend on the next token. -/
theorem peek_bind {f : Token → Indexed β} {g : Token → Parser β} (h : ∀ t, FollowsAt L t keep k n (f t) (g t)) :
    Follows L keep k n (L.list.peek >>= f) (Parser.peek >>= g) := by
  intro c s hm hn
  rw [bind_of_ok hm.peek_run, Parser.bind_of_ok (Parser.peek_run s)]
  exact h _ hm rfl hn

theorem check {t : TokenKind} (ht : t ≠ .eof) :
    Follows L keep 0 n (L.list.check t) (Parser.nextIs t) := fun c s hm _ => by
  rw [hm.check_run ht, Parser.nextIs_run]
  exact .ok hm.moved hm (le_refl _)

/-- Behind a token that is taken where it stands one fewer is left. -/
theorem accept_bind {t : TokenKind} {p p' : Indexed β} {q q' : Parser β} (ht : t ≠ .eof)
    (yes : Follows L keep (k - 1) (n - 1) p q) (no : Follows L keep k n p' q') :
    Follows L keep k n (L.list.accept t >>= fun b => if b = true then p else p')
      (Parser.accept t >>= fun b => if b = true then q else q') := by
  intro c s hm hn
  by_cases hnext : s.next.kind = t
  · have hne : s.next.kind ≠ .eof := hnext ▸ ht
    have hlen := length_advance hne
    rw [bind_of_ok (hm.accept_of_next ht hnext), Parser.bind_of_ok (Parser.accept_of_next hnext), if_pos rfl]
    exact (yes (hm.step hne) (by omega)).trans (hm.moved_step hne) (by omega)
  · rw [bind_of_ok (hm.accept_of_ne ht hnext), Parser.bind_of_ok (Parser.accept_of_ne hnext),
      if_neg Bool.false_ne_true]
    exact no hm hn

theorem expect {t : TokenKind} (ht : t ≠ .eof) :
    Follows L keep 1 n (L.list.expect t) (Parser.expect t) := by
  intro c s hm hn
  by_cases hnext : s.next.kind = t
  · have hne : s.next.kind ≠ .eof := hnext ▸ ht
    rw [hm.expect_of_next ht hnext, Parser.expect_of_next hnext]
    exact .ok (hm.moved_step hne) (hm.step hne) (length_advance hne).le
  · unfold TokenList.expect Parser.expect
    rw [bind_of_ok (hm.check_run ht), decide_eq_false hnext, if_neg Bool.false_ne_true, bind_of_ok hm.peek_run,
      Parser.bind_of_ok (Parser.accept_of_ne hnext)]
    exact unexpected _ _ hm hn

theorem lastSpan : Follows L keep 0 n L.list.lastSpan Parser.lastSpan := fun c s hm _ => by
  obtain ⟨t, ht, hspan⟩ := hm.previous_run
  unfold TokenList.lastSpan
  rw [bind_of_ok ht, hspan]
  exact .ok hm.moved hm (le_refl _)

theorem spanFrom (start : Span) :
    Follows L keep 0 n (L.list.spanFrom start) (Parser.spanFrom start) := .bind lastSpan fun _ => pure _

/-- What is done next may depend on a question that the position and the reading answer alike. -/
theorem ask_bind {ask : Indexed Bool} (answer : Reading → Bool) {p p' : Indexed β} {q q' : Parser β}
    (hask : ∀ {c s}, Meets L c s → ∃ c', ask c = some (.ok (answer s), c') ∧ Meets L c' s ∧ Moved L keep c c')
    (yes : Follows L keep k n p q) (no : Follows L keep k n p' q') :
    Follows L keep k n (ask >>= fun b => if b = true then p else p')
      (get >>= fun s => if answer s = true then q else q') := by
  intro c s hm hn
  obtain ⟨c', hrun, hmeets, hmoved⟩ := hask hm
  rw [bind_of_ok hrun]
  show Outcome L keep k c s _ ((if answer s = true then q else q') s)
  exact (ite yes no hmeets hn).trans hmoved (le_refl _)

theorem declares_bind {name : String} {p p' : Indexed β} {q q' : Parser β} (yes : Follows L keep k n p q)
    (no : Follows L keep k n p' q') :
    Follows L keep k n (declares name >>= fun b => if b = true then p else p')
      (get >>= fun s => if s.declares name = true then q else q') := by
  refine ask_bind (fun s => s.declares name) (fun {c s} hm => ⟨c, ?_, hm, hm.moved⟩) yes no
  rw [Reading.declares, hm.declared]
  rfl

theorem finishes_bind {name : String} {p p' : Indexed β} {q q' : Parser β} (yes : Follows L keep k n p q)
    (no : Follows L keep k n p' q') :
    Follows L keep k n (finishes name >>= fun b => if b = true then p else p')
      (get >>= fun s => if s.finishes name = true then q else q') := by
  refine ask_bind (fun s => s.finishes name) (fun {c s} hm => ⟨c, ?_, hm, hm.moved⟩) yes no
  rw [Reading.finishes, hm.declared]
  rfl

/-- What is given may name the program. -/
theorem unit_pure (f : Nat → α) :
    Follows L keep 0 n (Pure.pure (f L.unit)) (get >>= fun s => Pure.pure (f s.unit)) := fun c s hm hn => by
  rw [← hm.unit_eq]
  exact pure (f s.unit) hm hn

end Follows

namespace FollowsAt

variable {t : Token} {p : Indexed β} {q : Parser β}

/-- A token that is no end mark may be taken. -/
theorem advance_bind {f : Token → Indexed β} (ht : t.kind ≠ .eof) (h : Follows L keep (k - 1) (n - 1) (f t) q) :
    FollowsAt L t keep k n (L.list.advance >>= f) (Parser.skip >>= fun _ => q) := by
  intro c s hm hnext hn
  subst hnext
  have hlen := length_advance ht
  rw [bind_of_ok (hm.advance_run ht), Parser.bind_of_ok (Parser.skip_run s)]
  exact (h (hm.step ht) (by omega)).trans (hm.moved_step ht) (by omega)

/-- Where a token that is no end mark is next, the one behind it may be looked at. -/
theorem second_bind {f : Token → Indexed β} {g : Token → Parser β} (ht : t.kind ≠ .eof)
    (h : ∀ u, FollowsAt L t keep k n (f u) (g u)) :
    FollowsAt L t keep k n (L.list.peekAhead 1 >>= f) (Parser.peekSecond >>= g) := by
  intro c s hm hnext hn
  have hlen := length_advance (s := s) (hnext ▸ ht)
  obtain ⟨c', hrun, hmeets, hmoved⟩ := hm.peekAhead_run keep (n := 1) (by omega)
  rw [bind_of_ok hrun, Parser.bind_of_ok (Parser.peekSecond_run s)]
  exact (h _ hmeets hnext hn).trans hmoved (le_refl _)

/-- A token that is not expected may be taken before the fault is told. -/
theorem advance_unexpected {f : Token → Indexed β} (expected : String)
    (hf : f t = Indexed.unexpected expected t) (hq : q = Parser.unexpected expected t) :
    FollowsAt L t keep k n (L.list.advance >>= f) q := by
  intro c s hm hnext hn
  subst hnext hq
  by_cases hend : s.next.kind = .eof
  · rw [bind_of_ok (hm.advance_of_eof hend), hf]
    exact .error hm.moved nofun
  · rw [bind_of_ok (hm.advance_run hend), hf]
    exact .error (hm.moved_step hend) nofun

/-- Where no token is left the next one is the end mark. -/
theorem of_pos (ht : t.kind ≠ .eof) (h : n ≠ 0 → FollowsAt L t keep k n p q) : FollowsAt L t keep k n p q := by
  intro c s hm hnext hn
  have hlen := length_advance (s := s) (hnext ▸ ht)
  exact h (by omega) hm hnext hn

end FollowsAt

/-- A name is taken where it stands. -/
theorem Follows.expectName : Follows L keep 1 n L.list.expectName Parser.expectName := by
  refine .peek_bind fun t => ?_
  cases hk : t.kind with
  | name x => exact .advance_bind (by rw [hk]; nofun) (.pure x)
  | _ => exact (Follows.unexpected _ t).at_next t

end Indexed

end ClassScript

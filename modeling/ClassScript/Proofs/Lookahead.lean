import ClassScript.Proofs.Acceptance
import Mathlib.Logic.Function.Iterate

/-!
# How far readers look

A reader of tokens looks at what it takes and at one token behind it.  `Prompt` says of a reader at a
place that it does the same at every place where these tokens are the same, and that it stops at the first
token that no text which it could take goes on with: what was taken up to there can be completed.  There is
one rule for each way of putting readers together.  `Blames` says what an error points at, told by the
tokens before the one where the reader stops.
-/

namespace ClassScript

open Grammar

namespace Reading

/-! ### Places ahead -/

/-- The reading behind the next `k` tokens, with the classes `d`. -/
def behind (s : Reading) (k : Nat) (d : List Declared) : Reading :=
  { advance^[k] s with declared := d }

theorem behind_zero (s : Reading) : s.behind 0 s.declared = s := rfl

theorem behind_one (s : Reading) : s.behind 1 s.declared = s.advance := by
  unfold behind
  rw [← declared_advance s]
  rfl

theorem iterate_advance_declared (s : Reading) (k : Nat) (d : List Declared) :
    advance^[k] { s with declared := d } = { advance^[k] s with declared := d } := by
  induction k generalizing s with
  | zero => rfl
  | succ k ih =>
    have h : advance { s with declared := d } = { s.advance with declared := d } := by
      unfold advance
      dsimp only
      split <;> rfl
    rw [Function.iterate_succ_apply, h, ih, Function.iterate_succ_apply]

theorem behind_behind (s : Reading) (j k : Nat) (d d' : List Declared) :
    (s.behind j d).behind k d' = s.behind (j + k) d' := by
  unfold behind
  rw [iterate_advance_declared, Nat.add_comm, Function.iterate_add_apply]

theorem rest_behind (s : Reading) (k : Nat) (d : List Declared) :
    (s.behind k d).rest = s.rest.drop k := by
  unfold behind
  dsimp only
  induction k generalizing s with
  | zero => rfl
  | succ k ih =>
    rw [Function.iterate_succ_apply, ih]
    unfold advance
    cases h : s.rest <;> simp [h]

theorem kinds_behind (s : Reading) (k : Nat) (d : List Declared) :
    (s.behind k d).kinds = s.kinds.drop k := by
  rw [kinds, rest_behind, List.map_drop, kinds]

theorem unit_behind (s : Reading) (k : Nat) (d : List Declared) : (s.behind k d).unit = s.unit := by
  unfold behind
  dsimp only
  induction k generalizing s with
  | zero => rfl
  | succ k ih => rw [Function.iterate_succ_apply, ih, unit_advance]

theorem passed_behind (s : Reading) (k : Nat) (d : List Declared) :
    s.Passed (s.kinds.take k) (s.behind k d) :=
  ⟨by rw [kinds_behind, List.take_append_drop], unit_behind s k d⟩

theorem ahead_one (s : Reading) : s.ahead 1 = s.advance.next := by
  obtain ⟨u, l, r, f, d⟩ := s
  cases r with
  | nil => rfl
  | cons x r => cases r <;> rfl

theorem last_advance {s : Reading} (h : s.next.kind ≠ .eof) : s.advance.last = s.next.span := by
  obtain ⟨u, l, r, f, d⟩ := s
  cases r with
  | nil => exact absurd rfl h
  | cons x r => rfl

theorem declares_advance (s : Reading) (x : String) : s.advance.declares x = s.declares x := by
  rw [declares, declared_advance, declares]

theorem finishes_advance (s : Reading) (x : String) : s.advance.finishes x = s.finishes x := by
  rw [finishes, declared_advance, finishes]

theorem length_kinds (s : Reading) : s.kinds.length = s.rest.length := List.length_map _

/-- The tokens that were taken are no longer there. -/
theorem Passed.length {s s' : Reading} {w : List TokenKind} (h : s.Passed w s') :
    s.rest.length = w.length + s'.rest.length := by
  rw [← length_kinds, h.text, List.length_append, length_kinds]

/-- The reading is in a program `unit`, and the classes `known` have been declared. -/
structure At (s : Reading) (unit : Nat) (known : Set String) : Prop where
  unit : s.unit = unit
  known : s.names.declared = known

theorem Took.length {s s' : Reading} {w : List TokenKind} (h : s.Took w s') :
    s.rest.length = w.length + s'.rest.length :=
  h.passed.length

theorem At.took {s s' : Reading} {w : List TokenKind} {unit : Nat} {known : Set String}
    (hat : s.At unit known) (h : s.Took w s') : s'.At unit known :=
  ⟨h.unit.trans hat.unit, by rw [h.names, hat.known]⟩

/-! ### Places that look alike -/

/-- `t` stands as `s` does, and the next `n` tokens, or the end before the last of them, are the same. -/
structure Agrees (n : Nat) (s t : Reading) : Prop where
  unit : t.unit = s.unit
  last : t.last = s.last
  declared : t.declared = s.declared
  take : t.rest.take n = s.rest.take n
  final : s.rest.length < n → t.final = s.final

namespace Agrees

variable {n k : Nat} {s t : Reading}

theorem refl (n : Nat) (s : Reading) : Agrees n s s := ⟨rfl, rfl, rfl, rfl, fun _ => rfl⟩

theorem mono (h : Agrees n s t) (hk : k ≤ n) : Agrees k s t := by
  refine ⟨h.unit, h.last, h.declared, ?_, fun hlt => h.final (by omega)⟩
  have := congrArg (List.take k) h.take
  rwa [List.take_take, List.take_take, Nat.min_eq_left hk] at this

theorem length_lt (h : Agrees n s t) (hlt : t.rest.length < n) : s.rest.length = t.rest.length := by
  have := congrArg List.length h.take
  rw [List.length_take, List.length_take] at this
  omega

theorem symm (h : Agrees n s t) : Agrees n t s :=
  ⟨h.unit.symm, h.last.symm, h.declared.symm, h.take.symm,
    fun hlt => (h.final (by rw [h.length_lt hlt]; exact hlt)).symm⟩

theorem trans {u : Reading} (h : Agrees n s t) (h' : Agrees n t u) : Agrees n s u :=
  ⟨h'.unit.trans h.unit, h'.last.trans h.last, h'.declared.trans h.declared, h'.take.trans h.take,
    fun hlt => (h'.final (by rwa [h.symm.length_lt hlt])).trans (h.final hlt)⟩

/-- As many tokens as were compared are there on both sides, or on none. -/
theorem length_le (h : Agrees n s t) (hk : k ≤ n) (hs : k ≤ s.rest.length) : k ≤ t.rest.length := by
  have := congrArg List.length h.take
  rw [List.length_take, List.length_take] at this
  omega

theorem ahead (h : Agrees n s t) (hk : k < n) : t.ahead k = s.ahead k := by
  have hget : t.rest[k]? = s.rest[k]? := by
    rw [← List.getElem?_take_of_lt hk, h.take, List.getElem?_take_of_lt hk]
  unfold Reading.ahead
  rw [hget]
  cases hs : s.rest[k]? with
  | some x => rfl
  | none =>
    rw [List.getElem?_eq_none_iff] at hs
    rw [Option.getD_none, Option.getD_none, h.final (by omega)]

theorem next (h : Agrees n s t) (hn : 0 < n) : t.next = s.next := h.ahead hn

theorem kinds (h : Agrees n s t) : t.kinds.take n = s.kinds.take n := by
  rw [Reading.kinds, Reading.kinds, ← List.map_take, ← List.map_take, h.take]

theorem names (h : Agrees n s t) : t.names = s.names := names_congr h.declared

theorem declares (h : Agrees n s t) (x : String) : t.declares x = s.declares x := by
  rw [Reading.declares, h.declared, Reading.declares]

theorem finishes (h : Agrees n s t) (x : String) : t.finishes x = s.finishes x := by
  rw [Reading.finishes, h.declared, Reading.finishes]

theorem advance (h : Agrees (n + 1) s t) : Agrees n s.advance t.advance := by
  obtain ⟨u, l, r, f, d⟩ := s
  obtain ⟨u', l', r', f', d'⟩ := t
  obtain ⟨rfl, rfl, rfl, htake, hfinal⟩ := h
  cases r with
  | nil =>
    obtain rfl : r' = [] := by simpa using htake
    exact ⟨rfl, rfl, rfl, rfl, fun _ => hfinal (Nat.succ_pos n)⟩
  | cons x r =>
    cases r' with
    | nil => cases htake
    | cons y r' =>
      rw [List.take_succ_cons, List.take_succ_cons] at htake
      obtain ⟨h, hrest⟩ := List.cons.inj htake
      subst h
      exact ⟨rfl, rfl, rfl, hrest, fun hlt => hfinal (Nat.succ_lt_succ hlt)⟩

theorem behind (h : Agrees (k + n) s t) (d : List Declared) :
    Agrees n (s.behind k d) (t.behind k d) := by
  induction k generalizing s t with
  | zero =>
    rw [Nat.zero_add] at h
    exact ⟨h.unit, h.last, rfl, h.take, h.final⟩
  | succ k ih => exact ih (advance (by rwa [Nat.add_right_comm] at h))

end Agrees

theorem At.agrees {s t : Reading} {n unit : Nat} {known : Set String} (hat : s.At unit known)
    (h : s.Agrees n t) : t.At unit known :=
  ⟨h.unit.trans hat.unit, by rw [h.names, hat.known]⟩

/-- The next `n` tokens may be followed by any others. -/
theorem exists_agrees (s : Reading) {n : Nat} (hn : n ≤ s.rest.length) (w : List TokenKind) :
    ∃ t, s.Agrees n t ∧ t.kinds = s.kinds.take n ++ w := by
  have hlen : (s.rest.take n).length = n := by rw [List.length_take, Nat.min_eq_left hn]
  refine ⟨{ s with rest := s.rest.take n ++ w.map fun k => ⟨k, {}⟩ },
    ⟨rfl, rfl, rfl, List.take_left' hlen, fun _ => rfl⟩, ?_⟩
  rw [kinds, List.map_append, List.map_take, List.map_map, kinds]
  exact congrArg _ (List.map_id w)

end Reading

/-! ### What stands before a token -/

namespace Grammar

/-- The tokens of the line that is not ended yet, the latest first. -/
def line (past : List TokenKind) : List TokenKind := past.reverse.takeWhile (· ≠ .newline)

/-- The line is not the header of a class or a method. -/
def Clean (past : List TokenKind) : Prop :=
  .keyword .kClass ∉ line past ∧ .keyword .kDef ∉ line past

/-- A name that stands here begins a primary. -/
def Fresh (past : List TokenKind) : Prop := past.getLast? ≠ some (.char '.') ∧ Clean past

/-- The last token is a name `x` that begins a primary. -/
def Calls (past : List TokenKind) (x : String) : Prop := ∃ p, past = p ++ [.name x] ∧ Fresh p

/-- The last token is the name in the header of a class. -/
def Heads (past : List TokenKind) : Prop := ∃ p c, past = p ++ [.keyword .kClass] ++ [.name c]

/-- What begins with a parenthesis and no expression does: there is nothing in the parentheses, or a comma
behind a whole expression. -/
def Enumerates (v : List TokenKind) : Prop :=
  v = [.char '(', .char ')'] ∨
    ∃ unit known n u, v = .char '(' :: (u ++ [.char ',']) ∧ Spells unit known (.expr .disjunction n) u

/-- The parentheses behind the `print` of this line are those of its arguments. -/
def Abandoned (past : List TokenKind) : Prop :=
  ∃ q v r, past = q ++ .keyword .kPrint :: (v ++ r) ∧ Enumerates v ∧ .newline ∉ r

/-- If a parenthesis `k` stands here, it does not follow the name of a call or of a class. -/
def Cool (past : List TokenKind) (k : TokenKind) : Prop :=
  k = .char '(' → (∀ x, ¬ Calls past x) ∧ ¬ Heads past

theorem line_concat (past : List TokenKind) (k : TokenKind) :
    line (past ++ [k]) = if k = .newline then [] else k :: line past := by
  unfold line
  rw [List.reverse_append, List.reverse_singleton, List.singleton_append, List.takeWhile_cons]
  by_cases h : k = .newline <;> simp [h]

theorem clean_nil : Clean [] := ⟨List.not_mem_nil, List.not_mem_nil⟩

theorem clean_newline (past : List TokenKind) : Clean (past ++ [.newline]) := by
  unfold Clean
  rw [line_concat, if_pos rfl]
  exact clean_nil

theorem Clean.concat {past : List TokenKind} (h : Clean past) {k : TokenKind}
    (hc : k ≠ .keyword .kClass) (hd : k ≠ .keyword .kDef) : Clean (past ++ [k]) := by
  unfold Clean
  rw [line_concat]
  split
  · exact clean_nil
  · exact ⟨List.not_mem_cons_of_ne_of_not_mem hc.symm h.1,
      List.not_mem_cons_of_ne_of_not_mem hd.symm h.2⟩

theorem Clean.append {past w : List TokenKind} (h : Clean past) (hc : .keyword .kClass ∉ w)
    (hd : .keyword .kDef ∉ w) : Clean (past ++ w) := by
  induction w generalizing past with
  | nil => rwa [List.append_nil]
  | cons k w ih =>
    rw [List.mem_cons, not_or] at hc hd
    rw [List.append_cons]
    exact ih (h.concat (Ne.symm hc.1) (Ne.symm hd.1)) hc.2 hd.2

/-- A line that has begun as a header stays one until it ends. -/
theorem not_clean_append {past w : List TokenKind} (h : ¬ Clean past) (hw : .newline ∉ w) :
    ¬ Clean (past ++ w) := by
  induction w generalizing past with
  | nil => rwa [List.append_nil]
  | cons k w ih =>
    rw [List.mem_cons, not_or] at hw
    rw [List.append_cons]
    refine ih (fun hclean => h ?_) hw.2
    unfold Clean at hclean
    rw [line_concat, if_neg (Ne.symm hw.1)] at hclean
    exact ⟨fun hm => hclean.1 (.tail _ hm), fun hm => hclean.2 (.tail _ hm)⟩

theorem not_clean_concat_class (past : List TokenKind) : ¬ Clean (past ++ [.keyword .kClass]) := by
  unfold Clean
  rw [line_concat, if_neg (by simp)]
  exact fun h => h.1 (.head _)

theorem not_clean_concat_def (past : List TokenKind) : ¬ Clean (past ++ [.keyword .kDef]) := by
  unfold Clean
  rw [line_concat, if_neg (by simp)]
  exact fun h => h.2 (.head _)

theorem Clean.fresh_concat {past : List TokenKind} (h : Clean past) {k : TokenKind}
    (hc : k ≠ .keyword .kClass) (hd : k ≠ .keyword .kDef) (hdot : k ≠ .char '.') :
    Fresh (past ++ [k]) := by
  refine ⟨?_, h.concat hc hd⟩
  rw [List.getLast?_concat]
  simpa using hdot

theorem cool_of_ne {past : List TokenKind} {k : TokenKind} (h : k ≠ .char '(') : Cool past k :=
  fun hk => absurd hk h

theorem cool_concat {past : List TokenKind} {l : TokenKind} (h : ∀ x, l ≠ .name x)
    (k : TokenKind) : Cool (past ++ [l]) k := by
  rintro -
  constructor
  · rintro x ⟨p, hp, -⟩
    exact h x (List.cons.inj (List.append_inj' hp rfl).2).1
  · rintro ⟨p, c, hp⟩
    exact h c (List.cons.inj (List.append_inj' hp rfl).2).1

theorem cool_nil (k : TokenKind) : Cool [] k := by
  rintro -
  constructor
  · rintro x ⟨p, hp, -⟩
    exact absurd hp (by simp)
  · rintro ⟨p, c, hp⟩
    exact absurd hp (by simp)

/-- A name that does not begin a primary, and is not that of a class, is followed by nothing of note. -/
theorem cool_name {past : List TokenKind} (h : ¬ Fresh past)
    (hc : past.getLast? ≠ some (.keyword .kClass)) (x : String) (k : TokenKind) :
    Cool (past ++ [.name x]) k := by
  rintro -
  constructor
  · rintro y ⟨p, hp, hfresh⟩
    obtain rfl := (List.append_inj' hp rfl).1
    exact h hfresh
  · rintro ⟨p, c, hp⟩
    obtain rfl := (List.append_inj' hp rfl).1
    exact hc List.getLast?_concat

end Grammar

namespace Parser

variable {α β : Type} {c : Nat} {past : List TokenKind} {s : Reading} {C : List TokenKind → Prop}

/-- What an error points at, when the reader stopped at `f` with `past` before it. -/
inductive Blames (past : List TokenKind) (f : Reading) (e : SyntaxError) : Prop
  /-- The token where the reader stopped. -/
  | here (span : e.span = f.next.span) (cool : Cool past f.next.kind)
  /-- The name of an unknown class, before the parenthesis where the reader stopped. -/
  | call {x : String} (h : Calls past x) (next : f.next.kind = .char '(')
    (eq : e = ⟨.unknownClass x, f.last⟩)
  /-- What stands for the parent of a class, when there is no class to derive from. -/
  | parent (h : Heads past) (next : f.next.kind = .char '(') (span : e.span = (f.ahead 1).span)
  /-- Nothing is said when a `print` has been read once more, without its parentheses. -/
  | abandoned (h : Abandoned past)

/-- Wherever the next `k` tokens and the one behind them are as they are at `s`, `P` takes the `k` tokens
and gives `a`. The bound has to exceed the number of tokens left by `c`. -/
structure Advances (c : Nat) (s : Reading) (P : Nat → Parser α) (a : α) (k : Nat) (d : List Declared) :
    Prop where
  le : k ≤ s.rest.length
  run : ∀ t m, t.rest.length + c ≤ m → s.Agrees (k + 1) t → P m t = .ok (a, t.behind k d)

/-- `P` stops at `s`, behind `past`, where it has to: it takes what it takes wherever the same tokens
follow, and its error comes up wherever the same tokens follow up to the one where it stopped, while what
it took before can be gone on with so that `C` holds of all of it. -/
inductive Prompt (c : Nat) (past : List TokenKind) (s : Reading) (C : List TokenKind → Prop)
    (P : Nat → Parser α) : Prop
  | advances {a : α} {k : Nat} {d : List Declared} (h : Advances c s P a k d)
    (cool : Cool (past ++ s.kinds.take k) (s.behind k d).next.kind)
  | fails {e : SyntaxError} {k : Nat} {d : List Declared} (le : k ≤ s.rest.length)
    (completed : ∃ z, C (s.kinds.take k ++ z)) (blames : Blames (past ++ s.kinds.take k) (s.behind k d) e)
    (run : ∀ m, s.rest.length + c ≤ m → P m s = .error e)
    (alike : ∀ t m, t.rest.length + c ≤ m → s.Agrees (k + 1) t → ∃ e', P m t = .error e')

theorem bind_of_error {p : Parser α} {f : α → Parser β} {e : SyntaxError} (h : p s = .error e) :
    (p >>= f) s = .error e := by
  change (p s >>= fun x => f x.1 x.2) = _
  rw [h]
  rfl

theorem expect_of_ne {k : TokenKind} (h : s.next.kind ≠ k) :
    Parser.expect k s = .error ⟨.unexpectedToken k.text s.next.kind.text, s.next.span⟩ := by
  unfold Parser.expect
  rw [bind_of_ok (accept_of_ne h), if_neg (by simp), bind_of_ok (peek_run s)]
  rfl

theorem expectName_of_ne (h : ∀ x, s.next.kind ≠ .name x) :
    expectName s = .error ⟨.unexpectedToken "identifier" s.next.kind.text, s.next.span⟩ := by
  unfold expectName
  rw [bind_of_ok (peek_run s)]
  generalize s.next = t at h ⊢
  obtain ⟨k, span⟩ := t
  cases k with
  | name x => exact absurd rfl (h x)
  | _ => rfl

namespace Prompt

variable {P Q : Nat → Parser α} {F : Nat → α → Parser β} {a : α}

/-! ### Putting readers together -/

theorem mono (h : Prompt c past s C P) {c' : Nat} (hc : c ≤ c') : Prompt c' past s C P := by
  cases h with
  | advances h cool =>
    exact .advances ⟨h.le, fun t m hm => h.run t m (by omega)⟩ cool
  | fails le completed blames run alike =>
    exact .fails le completed blames (fun m hm => run m (by omega)) fun t m hm => alike t m (by omega)

/-- A reader with the bound one lower. -/
theorem pred (h : Prompt c past s C P) : Prompt (c + 1) past s C fun m => P (m - 1) := by
  cases h with
  | advances h cool =>
    exact .advances ⟨h.le, fun t m hm => h.run t (m - 1) (by omega)⟩ cool
  | fails le completed blames run alike =>
    exact .fails le completed blames (fun m hm => run (m - 1) (by omega))
      fun t m hm => alike t (m - 1) (by omega)

theorem weaken {D : List TokenKind → Prop} (h : Prompt c past s D P)
    (hC : ∀ u, D u → ∃ v, C (u ++ v)) : Prompt c past s C P := by
  cases h with
  | advances h cool => exact .advances h cool
  | fails le completed blames run alike =>
    obtain ⟨z, hz⟩ := completed
    obtain ⟨v, hv⟩ := hC _ hz
    exact .fails le ⟨z ++ v, by rwa [← List.append_assoc]⟩ blames run alike

/-- Two readers that do the same where the next token is the same. -/
theorem congr (h : Prompt c past s C Q)
    (hPQ : ∀ t m, t.rest.length + c ≤ m → s.Agrees 1 t → P m t = Q m t) : Prompt c past s C P := by
  cases h with
  | @advances a k d h cool =>
    refine .advances (a := a) ⟨h.le, fun t m hm ht => ?_⟩ cool
    rw [hPQ t m hm (ht.mono (by omega)), h.run t m hm ht]
  | fails le completed blames run alike =>
    refine .fails le completed blames (fun m hm => ?_) fun t m hm ht => ?_
    · rw [hPQ s m hm (.refl 1 s), run m hm]
    · rw [hPQ t m hm (ht.mono (by omega))]
      exact alike t m hm ht

/-- A reader that goes on as another one does behind `j` tokens. -/
theorem enter {Q : Nat → Parser β} {G : Nat → Parser β} {j : Nat} {d : List Declared}
    (hj : j ≤ s.rest.length)
    (hQ : ∀ t m, t.rest.length + c ≤ m → s.Agrees (j + 1) t → Q m t = G m (t.behind j d))
    (hG : Prompt (c + j) (past ++ s.kinds.take j) (s.behind j d) (fun v => C (s.kinds.take j ++ v)) G) :
    Prompt c past s C Q := by
  have hbound : ∀ {t : Reading} {m k : Nat}, t.rest.length + c ≤ m → s.Agrees (j + k + 1) t →
      (t.behind j d).rest.length + (c + j) ≤ m := by
    intro t m k hm ht
    have := ht.length_le (k := j) (by omega) hj
    rw [Reading.rest_behind, List.length_drop]
    omega
  have hagree : ∀ {t : Reading} {k : Nat}, s.Agrees (j + k + 1) t →
      (s.behind j d).Agrees (k + 1) (t.behind j d) := fun ht =>
    Reading.Agrees.behind (k := j) (by rwa [Nat.add_assoc] at ht) d
  have htake : ∀ k, s.kinds.take j ++ (s.behind j d).kinds.take k = s.kinds.take (j + k) := by
    intro k
    rw [Reading.kinds_behind, List.take_add]
  cases hG with
  | @advances b k d' hG cool =>
    have hk := hG.le
    rw [Reading.rest_behind, List.length_drop] at hk
    rw [List.append_assoc, htake, Reading.behind_behind] at cool
    refine .advances (a := b) ⟨by omega, fun t m hm ht => ?_⟩ cool
    rw [hQ t m hm (ht.mono (by omega)), hG.run _ m (hbound hm ht) (hagree ht), Reading.behind_behind]
  | @fails e k d' le completed blames run alike =>
    rw [Reading.rest_behind, List.length_drop] at le
    rw [List.append_assoc, htake, Reading.behind_behind] at blames
    obtain ⟨z, hz⟩ := completed
    rw [← List.append_assoc, htake] at hz
    refine .fails (by omega) ⟨z, hz⟩ blames (fun m hm => ?_) fun t m hm ht => ?_
    · rw [hQ s m hm (.refl _ s), run m (hbound hm (.refl (j + k + 1) s))]
    · rw [hQ t m hm (ht.mono (by omega))]
      exact alike _ m (hbound hm ht) (hagree ht)

/-- What has been taken and then more. -/
theorem step {j : Nat} {d : List Declared} (h : Advances c s P a j d)
    (hF : Prompt (c + j) (past ++ s.kinds.take j) (s.behind j d) (fun v => C (s.kinds.take j ++ v))
      fun m => F m a) : Prompt c past s C fun m => P m >>= F m :=
  enter h.le (fun t m hm ht => bind_of_ok (h.run t m hm ht)) hF

/-- One reader and then another, which is told where the first one ended. -/
theorem bind {D : List TokenKind → Prop} (h : Prompt c past s D P)
    (hD : ∀ u, D u → ∃ v, C (u ++ v))
    (hF : ∀ a w s', s.Passed w s' → (∀ m, s.rest.length + c ≤ m → P m s = .ok (a, s')) →
      Cool (past ++ w) s'.next.kind →
      Prompt (c + w.length) (past ++ w) s' (fun v => C (w ++ v)) fun m => F m a) :
    Prompt c past s C fun m => P m >>= F m := by
  cases h with
  | @advances a k d h cool =>
    refine step h ?_
    have hlen : (s.kinds.take k).length = k := by
      rw [List.length_take, Reading.length_kinds, Nat.min_eq_left h.le]
    have := hF a _ _ (s.passed_behind k d) (fun m hm => h.run s m hm (.refl _ s)) cool
    rwa [hlen] at this
  | fails le completed blames run alike =>
    obtain ⟨z, hz⟩ := completed
    obtain ⟨v, hv⟩ := hD _ hz
    refine .fails le ⟨z ++ v, by rwa [← List.append_assoc]⟩ blames (fun m hm => ?_) fun t m hm ht => ?_
    · exact bind_of_error (run m hm)
    · obtain ⟨e', he⟩ := alike t m hm ht
      exact ⟨e', bind_of_error he⟩

/-- Something is looked up that is the same where the next token is the same. -/
theorem look (h : ∀ t m, s.Agrees 1 t → P m t = .ok (a, t)) (hF : Prompt c past s C fun m => F m a) :
    Prompt c past s C fun m => P m >>= F m :=
  hF.congr fun t m _ ht => bind_of_ok (h t m ht)

/-- A reader that takes nothing. -/
theorem done (h : ∀ t m, s.Agrees 1 t → P m t = .ok (a, t)) (cool : Cool past s.next.kind) :
    Prompt c past s C P := by
  refine .advances (k := 0) (d := s.declared) (a := a) ⟨Nat.zero_le _, fun t m _ ht => ?_⟩ ?_
  · rw [h t m ht, ← ht.declared, Reading.behind_zero]
  · rwa [List.take_zero, List.append_nil, Reading.behind_zero]

theorem pure (cool : Cool past s.next.kind) : Prompt c past s C fun _ => (Pure.pure a : Parser α) :=
  done (fun _ _ _ => rfl) cool

/-- A reader that stops at the next token. -/
theorem fail_with {e : SyntaxError} (blames : Blames past s e) (completed : ∃ z, C z)
    (run : ∀ m, P m s = .error e) (alike : ∀ t m, s.Agrees 1 t → ∃ e', P m t = .error e') :
    Prompt c past s C P := by
  refine .fails (k := 0) (d := s.declared) (Nat.zero_le _) completed ?_ (fun m _ => run m)
    fun t m _ ht => alike t m ht
  rwa [List.take_zero, List.append_nil, Reading.behind_zero]

/-- A reader that stops at the next token with one and the same error. -/
theorem fail {e : SyntaxError} (blames : Blames past s e) (completed : ∃ z, C z)
    (h : ∀ t m, s.Agrees 1 t → P m t = .error e) : Prompt c past s C P :=
  fail_with blames completed (fun m => h s m (.refl 1 s)) fun t m ht => ⟨e, h t m ht⟩

/-- A reader that stops at the end with one and the same fault. -/
theorem ended {fault : SyntaxFault} (hs : s.rest = []) (completed : ∃ z, C z)
    (h : ∀ t m, t.rest = [] → P m t = .error ⟨fault, t.final⟩) : Prompt c past s C P := by
  have hnext : s.next = ⟨.eof, s.final⟩ := by
    rw [Reading.next, Reading.ahead, hs]
    rfl
  refine fail (e := ⟨fault, s.final⟩) (.here (by rw [hnext]) (cool_of_ne (by rw [hnext]; simp))) completed
    fun t m ht => ?_
  have htake := ht.take
  rw [hs, List.take_nil] at htake
  rw [h t m (by simpa using htake), ht.final (by simp [hs])]

/-- The classes are changed and nothing is taken. -/
theorem change {f : Reading → Reading} {F : Nat → Unit → Parser β} {d : List Declared}
    (h : ∀ t, t.declared = s.declared → f t = t.behind 0 d) (hF : Prompt c past (f s) C fun m => F m ()) :
    Prompt c past s C fun m => (modify f : Parser Unit) >>= F m := by
  refine enter (j := 0) (G := fun m => F m ()) (d := d) (Nat.zero_le _) (fun t m _ ht => ?_) ?_
  · rw [bind_of_ok (modify_run f t), h t ht.declared]
  · rwa [List.take_zero, List.append_nil, ← h s rfl]

/-! ### Single tokens -/

/-- One token is taken and then more. -/
theorem token {k : TokenKind} (hk : s.next.kind = k) (hne : k ≠ .eof)
    (h : ∀ t m, t.next = s.next → P m t = .ok (a, t.advance))
    (hF : Prompt (c + 1) (past ++ [k]) s.advance (fun v => C (k :: v)) fun m => F m a) :
    Prompt c past s C fun m => P m >>= F m := by
  have hkinds := Reading.kinds_of_next_kind hk hne
  have hle : 1 ≤ s.rest.length := by
    rw [← Reading.length_kinds, hkinds]
    exact Nat.succ_pos _
  have htake : s.kinds.take 1 = [k] := by
    rw [hkinds]
    rfl
  refine step (a := a) (j := 1) (d := s.declared) ⟨hle, fun t m _ ht => ?_⟩ ?_
  · rw [h t m (ht.next (by omega)), ← ht.declared, Reading.behind_one]
  · rw [htake, Reading.behind_one]
    exact hF

theorem skip {F : Nat → Unit → Parser β} {k : TokenKind} (hk : s.next.kind = k) (hne : k ≠ .eof)
    (hF : Prompt (c + 1) (past ++ [k]) s.advance (fun v => C (k :: v)) fun m => F m ()) :
    Prompt c past s C fun m => Parser.skip >>= F m :=
  token hk hne (fun t _ _ => skip_run t) hF

theorem peek {F : Nat → Token → Parser β} (hF : Prompt c past s C fun m => F m s.next) :
    Prompt c past s C fun m => Parser.peek >>= F m :=
  look (fun t _ ht => by rw [peek_run, ht.next (by omega)]) hF

theorem spanFrom {start : Span} {F : Nat → Span → Parser β}
    (hF : Prompt c past s C fun m => F m (start.merge s.last)) :
    Prompt c past s C fun m => Parser.spanFrom start >>= F m :=
  look (fun t _ ht => by rw [spanFrom_run, ht.last]) hF

theorem nextIs {k : TokenKind} {F : Nat → Bool → Parser β}
    (hF : Prompt c past s C fun m => F m (decide (s.next.kind = k))) :
    Prompt c past s C fun m => Parser.nextIs k >>= F m :=
  look (fun t _ ht => by rw [nextIs_run, ht.next (by omega)]) hF

theorem accept {k : TokenKind} (hne : k ≠ .eof) {F : Nat → Bool → Parser β}
    (yes : s.next.kind = k →
      Prompt (c + 1) (past ++ [k]) s.advance (fun v => C (k :: v)) fun m => F m true)
    (no : s.next.kind ≠ k → Prompt c past s C fun m => F m false) :
    Prompt c past s C fun m => Parser.accept k >>= F m := by
  by_cases hk : s.next.kind = k
  · refine token hk hne (fun t _ ht => accept_of_next ?_) (yes hk)
    rw [ht, hk]
  · refine look (fun t _ ht => accept_of_ne ?_) (no hk)
    rwa [ht.next (by omega)]

theorem expect {k : TokenKind} (hne : k ≠ .eof) {F : Nat → Unit → Parser β}
    (cool : s.next.kind ≠ k → Cool past s.next.kind) (completed : ∃ z, C (k :: z))
    (hF : s.next.kind = k →
      Prompt (c + 1) (past ++ [k]) s.advance (fun v => C (k :: v)) fun m => F m ()) :
    Prompt c past s C fun m => Parser.expect k >>= F m := by
  by_cases hk : s.next.kind = k
  · refine token hk hne (fun t _ ht => expect_of_next ?_) (hF hk)
    rw [ht, hk]
  · obtain ⟨z, hz⟩ := completed
    refine fail (e := ⟨.unexpectedToken k.text s.next.kind.text, s.next.span⟩) (.here rfl (cool hk))
      ⟨_, hz⟩ fun t m ht => bind_of_error ?_
    rw [expect_of_ne (by rwa [ht.next (by omega)]), ht.next (by omega)]

theorem expectName {F : Nat → String → Parser β} (cool : Cool past s.next.kind)
    (completed : ∃ x z, C (.name x :: z))
    (hF : ∀ x, s.next.kind = .name x →
      Prompt (c + 1) (past ++ [.name x]) s.advance (fun v => C (.name x :: v)) fun m => F m x) :
    Prompt c past s C fun m => Parser.expectName >>= F m := by
  by_cases hk : ∃ x, s.next.kind = .name x
  · obtain ⟨x, hx⟩ := hk
    refine token hx (by simp) (fun t _ ht => expectName_of_next ?_) (hF x hx)
    rw [ht, hx]
  · obtain ⟨x, z, hz⟩ := completed
    refine fail (e := ⟨.unexpectedToken "identifier" s.next.kind.text, s.next.span⟩)
      (.here rfl cool) ⟨_, hz⟩ fun t m ht => bind_of_error ?_
    rw [expectName_of_ne fun y hy => hk ⟨y, by rwa [ht.next (by omega)] at hy⟩, ht.next (by omega)]

end Prompt

/-! ### Readers of texts -/

/-- Where at most `N` tokens are left and `Ok` holds of those before, `P` is prompt at the texts `L`; whatever
it takes is one of them. -/
structure Reader (c N : Nat) (unit : Nat) (known : Set String) (Ok L : List TokenKind → Prop)
    (P : Nat → Parser α) : Prop where
  prompt : ∀ past s, s.rest.length ≤ N → s.At unit known → Ok past → Prompt c past s L P
  takes : ∀ m, Sound (P m) fun u k _ w => u = unit → k = known → L w

variable {N unit : Nat} {known : Set String} {Ok L : List TokenKind → Prop} {I : Nat → Parser α}

theorem Reader.bind (h : Reader c N unit known Ok L I) {c' : Nat} (hc : c ≤ c')
    (hN : s.rest.length ≤ N) (hat : s.At unit known) (hok : Ok past) (hL : ∀ u, L u → ∃ v, C (u ++ v))
    {F : Nat → α → Parser β}
    (hF : ∀ a w s', s.Took w s' → L w → Cool (past ++ w) s'.next.kind →
      Prompt (c' + w.length) (past ++ w) s' (fun v => C (w ++ v)) fun m => F m a) :
    Prompt c' past s C fun m => I m >>= F m := by
  refine ((h.prompt past s hN hat hok).mono hc).bind hL fun a w s' hp hrun cool => ?_
  obtain ⟨v, ht, hv⟩ := h.takes _ s a s' (hrun _ le_rfl)
  obtain rfl : w = v := List.append_cancel_right (hp.text.symm.trans ht.text)
  exact hF a w s' ht (hv hat.unit hat.known) cool

/-- Texts of `L` with commas between them. -/
def Commas (L : List TokenKind → Prop) (w : List TokenKind) : Prop :=
  ∃ ws, ws ≠ [] ∧ (∀ v ∈ ws, L v) ∧ w = commas ws

/-- Texts of `L` in parentheses. -/
def Parens (L : List TokenKind → Prop) (w : List TokenKind) : Prop :=
  ∃ ws, (∀ v ∈ ws, L v) ∧ w = parens (commas ws)

theorem Commas.single {w : List TokenKind} (h : L w) : Commas L w :=
  ⟨[w], by simp, by simpa using h, (commas_singleton w).symm⟩

theorem Commas.cons {u w : List TokenKind} (h : L u) (hw : Commas L w) :
    Commas L (u ++ .char ',' :: w) := by
  obtain ⟨ws, hne, hall, rfl⟩ := hw
  exact ⟨u :: ws, by simp, by simpa using ⟨h, hall⟩, (commas_cons hne u).symm⟩

/-- The texts of items, where another item may stand behind one and a comma. -/
structure Items (Ok L : List TokenKind → Prop) : Prop where
  exist : ∃ w, L w
  ne_nil : ∀ w, L w → w ≠ []
  again : ∀ past w, Ok past → L w → Ok (past ++ w ++ [.char ','])

theorem commaList_prompt (h : Reader c N unit known Ok L I) (hI : Items Ok L) {b i : Nat}
    (hc : c ≤ b) (hi : i ≤ b) (hN : s.rest.length ≤ N) (hat : s.At unit known) (hok : Ok past) :
    Prompt b past s (Commas L) fun m => commaList (I m) (m - i) := by
  induction hn : s.rest.length using Nat.strong_induction_on generalizing past s b i with
  | _ n ih =>
    subst hn
    let next (m n : Nat) (a : α) : Parser (List α) := do
      if ← Parser.accept (.char ',') then
        return a :: (← commaList (I m) n)
      else
        return [a]
    let behind (m : Nat) (a : α) : Parser (List α) :=
      if m - i = 0 then return [a] else next m (m - i - 1) a
    have hbehind : ∀ m, commaList (I m) (m - i) = I m >>= behind m := by
      intro m
      show _ = I m >>= fun a => behind m a
      dsimp only [behind]
      cases m - i <;> rfl
    refine Prompt.congr (Q := fun m => I m >>= behind m) ?_ fun t m _ _ => by rw [hbehind]
    refine h.bind hc hN hat hok (fun u hu => ⟨[], by simpa using Commas.single hu⟩)
      fun a w s' ht hw cool => ?_
    have hpos := List.length_pos_iff.2 (hI.ne_nil w hw)
    refine Prompt.congr (Q := fun m => next m (m - (i + 1)) a) ?_ fun t m hm _ => ?_
    · refine Prompt.accept (by simp) (fun hcomma => ?_) fun _ => Prompt.pure cool
      have hone := ht.concat hcomma (by simp)
      have hlen := congrArg List.length hone.text
      rw [List.length_append, Reading.length_kinds, Reading.length_kinds] at hlen
      refine Prompt.bind (ih _ ?_ (b := b + w.length + 1) (i := i + 1) ?_ ?_ ?_ (hat.took hone)
        (hI.again past w hok hw) rfl) (fun u hu => ⟨[], ?_⟩) fun as v s'' hp _ cool => Prompt.pure cool
      · rw [List.length_append, List.length_singleton] at hlen
        omega
      · omega
      · omega
      · omega
      · simpa using Commas.cons hw hu
    · dsimp only [behind]
      rw [if_neg (by omega), Nat.sub_add_eq]

theorem commaList_reader (h : Reader c N unit known Ok L I) (hI : Items Ok L) :
    Reader c N unit known Ok (Commas L) fun m => commaList (I m) m where
  prompt past s hN hat hok := commaList_prompt h hI le_rfl (Nat.zero_le c) hN hat hok
  takes m s as s' hs := by
    obtain ⟨w, ht, items, hne, -, rfl, hall⟩ := commaList_sound (h.takes m) m s as s' hs
    refine ⟨_, ht, fun hu hk => ⟨items.map Prod.fst, by simpa using hne, fun v hv => ?_, rfl⟩⟩
    obtain ⟨p, hp, rfl⟩ := List.mem_map.1 hv
    exact hall p hp hu hk

theorem parenthesized_reader (h : Reader c N unit known Ok L I) (hI : Items Ok L)
    {Before : List TokenKind → Prop} (hopen : ∀ past, Before past → Ok (past ++ [.char '('])) :
    Reader c (N + 1) unit known Before (Parens L) fun m => parenthesized (I m) m where
  prompt past s hN hat hok := by
    have hnil : Parens L [.char '(', .char ')'] := ⟨[], by simp, rfl⟩
    refine Prompt.expect (by simp) cool_of_ne ⟨_, hnil⟩ fun hbracket => ?_
    have hopened := Reading.Took.advance hbracket (by simp)
    refine Prompt.accept (by simp) (fun _ => Prompt.pure (cool_concat (by simp) _)) fun _ => ?_
    have hlen := congrArg List.length hopened.text
    rw [List.length_append, Reading.length_kinds, Reading.length_kinds, List.length_singleton] at hlen
    refine (commaList_reader h hI).bind (Nat.le_succ c) (by omega) (hat.took hopened) (hopen past hok)
      (fun u hu => ?_) fun as w s' ht hw cool => ?_
    · obtain ⟨ws, -, hall, rfl⟩ := hu
      exact ⟨[.char ')'], ws, hall, rfl⟩
    · obtain ⟨ws, -, hall, rfl⟩ := hw
      exact Prompt.expect (by simp) (fun _ => cool) ⟨[], ws, hall, rfl⟩ fun _ =>
        Prompt.pure (cool_concat (by simp) _)
  takes m s as s' hs := by
    obtain ⟨w, ht, items, -, rfl, hall⟩ := parenthesized_sound (h.takes m) m s as s' hs
    refine ⟨_, ht, fun hu hk => ⟨items.map Prod.fst, fun v hv => ?_, rfl⟩⟩
    obtain ⟨p, hp, rfl⟩ := List.mem_map.1 hv
    exact hall p hp hu hk

end Parser

end ClassScript

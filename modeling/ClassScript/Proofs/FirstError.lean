import ClassScript.Proofs.StatementLookahead

/-!
# Where syntax errors are reported

A list of tokens is viable if it begins some program.  The error for a list that is none points at the first
token that no viable list goes on with, but for parentheses: one behind the name of a call blames the name,
which is that of no class, and one behind the name of a class in its header blames what stands for the parent,
as there is no class to derive from.  Nothing is said of a line where the arguments of a `print` stand in
parentheses and something else is wrong.  Main statement: `ofTokens_reported`.
-/

namespace ClassScript

open Grammar

variable {unit : Nat} {ts : List Token} {last : Token} {i k : Nat} {e : SyntaxError}

/-- Some program begins with these tokens. -/
def Viable (unit : Nat) (ts : List Token) : Prop :=
  ∃ more last root, last.kind = .eof ∧ Node.ofTokens unit (ts ++ more ++ [last]) = .ok root

/-- `i` is the first place such that no program begins with the tokens up to and with the one there. -/
structure FirstWrong (unit : Nat) (ts : List Token) (i : Nat) : Prop where
  lt : i < ts.length
  before : ∀ j < i, Viable unit (ts.take (j + 1))
  wrong : ¬ Viable unit (ts.take (i + 1))

/-- The kinds of the tokens before the place `i`. -/
def kindsBefore (ts : List Token) (i : Nat) : List TokenKind := (ts.take i).map Token.kind

/-- What an error points at when the token at `i` is the first wrong one. -/
structure Reported (ts : List Token) (i : Nat) (e : SyntaxError) : Prop where
  /-- The name before a parenthesis, where it begins a primary. -/
  call (x : String) (opens : ts[i]?.map Token.kind = some (.char '('))
    (name : Calls (kindsBefore ts i) x) :
    e.fault = .unknownClass x ∧ ts[i - 1]?.map Token.span = some e.span
  /-- The token behind a parenthesis that follows the name of a class in its header. -/
  parent (opens : ts[i]?.map Token.kind = some (.char '(')) (name : Heads (kindsBefore ts i)) :
    ts[i + 1]?.map Token.span = some e.span
  /-- Otherwise the first wrong token. -/
  here (other : ts[i]?.map Token.kind = some (.char '(') →
      (∀ x, ¬ Calls (kindsBefore ts i) x) ∧ ¬ Heads (kindsBefore ts i)) :
    ts[i]?.map Token.span = some e.span

/-! ### Beginnings of programs -/

namespace Grammar

theorem Writes.eof_not_mem {unit : Nat} {a b : ClassNames} {c : Clause} {w : List TokenKind}
    (h : Writes unit a c w b) : .eof ∉ w := by
  have hexpr : ∀ {known p u}, Spells unit known p u → .eof ∉ u := fun h => h.foreign_not_mem (by decide)
  induction h with
  | ret value => simp [hexpr value]
  | retNone => simp
  | printCall args => simp [hexpr args]
  | print items each =>
    have hitems : .eof ∉ commas (items.map Prod.fst) := by
      refine not_mem_commas (by simp) fun w hw => ?_
      obtain ⟨p, hp, rfl⟩ := List.mem_map.1 hw
      exact hexpr (each p hp)
    simp [hitems]
  | assign value => simp [hexpr value, foreign_not_mem_pathText (k := .eof) (by decide)]
  | setField h value => simp [hexpr value, foreign_not_mem_pathText (k := .eof) (by decide)]
  | expr value => simp [hexpr value]
  | ifThen cond body ih => simp [hexpr cond, ih]
  | ifElse cond body other ih ih' => simp [hexpr cond, ih, ih']
  | @classDef a b c parent ms w fresh known body nonempty ih =>
    cases parent <;> simp [parens, ih]
  | @method a b m written params body w h suite ih =>
    have hnames : .eof ∉ commas (written.map fun x => [.name x]) := by
      refine not_mem_commas (by simp) fun w hw => ?_
      obtain ⟨x, -, rfl⟩ := List.mem_map.1 hw
      simp
    simp [parens, hnames, ih]
  | suite body ih => simp [ih]
  | noStatements | noMethods => simp
  | statements first rest ih ih' | methods first rest ih ih' => simp [ih, ih']

end Grammar

theorem Viable.take (h : Viable unit ts) (k : Nat) : Viable unit (ts.take k) := by
  obtain ⟨more, last, root, hl, hok⟩ := h
  refine ⟨ts.drop k ++ more, last, root, hl, ?_⟩
  rwa [← List.append_assoc, List.take_append_drop]

theorem Viable.before {j : Nat} (h : Viable unit (ts.take k)) (hj : j < k) :
    Viable unit (ts.take (j + 1)) := by
  have htake := h.take (j + 1)
  rwa [List.take_take, Nat.min_eq_left hj] at htake

/-- Tokens are viable if the grammar has a text of a program that begins with them. -/
theorem viable_of_derivable (h : ∀ t ∈ ts, t.kind ≠ .eof) {w : List TokenKind}
    (hw : Derivable unit (ts.map Token.kind ++ w)) : Viable unit ts := by
  have hkinds : (ts ++ w.map fun k => (⟨k, {}⟩ : Token)).map Token.kind = ts.map Token.kind ++ w := by
    rw [List.map_append, List.map_map]
    exact congrArg _ (List.map_id w)
  have hmarks : ∀ t ∈ ts ++ w.map fun k => (⟨k, {}⟩ : Token), t.kind ≠ .eof := by
    intro t ht
    obtain ht | ht := List.mem_append.1 ht
    · exact h t ht
    · obtain ⟨k, hk, rfl⟩ := List.mem_map.1 ht
      obtain ⟨ns, b, hns⟩ := hw
      rintro rfl
      exact hns.eof_not_mem (List.mem_append_right _ hk)
  rw [← hkinds] at hw
  have hl : (⟨.eof, {}⟩ : Token).kind = .eof := rfl
  obtain ⟨root, hok⟩ := (accepted_iff_derivable hmarks hl).2 hw
  exact ⟨_, _, root, rfl, hok⟩

/-- There is at most one first wrong place. -/
theorem FirstWrong.unique {j : Nat} (h : FirstWrong unit ts i) (h' : FirstWrong unit ts j) : i = j := by
  obtain hlt | heq | hlt := Nat.lt_trichotomy i j
  · exact absurd (h'.before i hlt) h.wrong
  · exact heq
  · exact absurd (h.before j hlt) h'.wrong

/-! ### Tokens and places -/

namespace Reading

theorem ahead_behind (s : Reading) (j : Nat) (d : List Declared) (k : Nat) :
    (s.behind j d).ahead k = s.ahead (j + k) := by
  have hfinal : (s.behind j d).final = s.final := by
    unfold behind
    dsimp only
    induction j generalizing s with
    | zero => rfl
    | succ j ih =>
      rw [Function.iterate_succ_apply, ih]
      unfold advance
      split <;> rfl
  rw [ahead, rest_behind, List.getElem?_drop, hfinal, ahead]

theorem last_behind {s : Reading} (h : (s.ahead k).kind ≠ .eof) (d : List Declared) :
    (s.behind (k + 1) d).last = (s.ahead k).span := by
  have hnext : (s.behind k d).next = s.ahead k := ahead_behind s k d 0
  have hadvance : (s.behind k d).advance = s.behind (k + 1) d := by
    rw [← behind_one, behind_behind]
    rfl
  rw [← hadvance, last_advance (by rwa [hnext]), hnext]

/-- What stands before the first end mark, and this itself, is told by as many tokens. -/
theorem takeWhile_congr {us : List Token} {n : Nat} (h : us.take n = ts.take n) :
    (us.takeWhile fun t => t.kind ≠ .eof).take n = (ts.takeWhile fun t => t.kind ≠ .eof).take n ∧
      ((ts.takeWhile fun t => t.kind ≠ .eof).length < n →
        us.find? (fun t => t.kind = .eof) = ts.find? fun t => t.kind = .eof) := by
  induction n generalizing us ts with
  | zero => exact ⟨rfl, fun h => absurd h (Nat.not_lt_zero _)⟩
  | succ n ih =>
    cases ts with
    | nil =>
      obtain rfl : us = [] := by simpa using h
      exact ⟨rfl, fun _ => rfl⟩
    | cons x ts =>
      cases us with
      | nil => cases h
      | cons y us =>
        rw [List.take_succ_cons, List.take_succ_cons] at h
        obtain ⟨heq, htail⟩ := List.cons.inj h
        subst heq
        obtain ⟨htake, hfind⟩ := ih htail
        by_cases hx : y.kind = .eof
        · simp [hx]
        · simp only [ne_eq, hx, not_false_eq_true, decide_true, List.takeWhile_cons_of_pos,
            List.take_succ_cons, List.length_cons, decide_false, Bool.false_eq_true,
            List.find?_cons_of_neg] at htake hfind ⊢
          exact ⟨congrArg _ htake, fun hlt => hfind (Nat.lt_of_succ_lt_succ hlt)⟩

/-- Readings of tokens that begin in the same way stand alike. -/
theorem agrees_ofTokens {us : List Token} {n : Nat} (hn : 0 < n) (h : us.take n = ts.take n) :
    (ofTokens unit ts).Agrees n (ofTokens unit us) := by
  obtain ⟨htake, hfind⟩ := takeWhile_congr h
  have hhead : us.head? = ts.head? := by
    rw [List.head?_eq_getElem?, ← List.getElem?_take_of_lt hn, h, List.getElem?_take_of_lt hn,
      List.head?_eq_getElem?]
  refine ⟨rfl, ?_, rfl, htake, fun hlt => ?_⟩
  · rw [ofTokens, ofTokens, hhead]
  · rw [ofTokens, ofTokens, hfind hlt]

/-- The tokens up to the end mark stand ahead in their order. -/
theorem getElem?_ofTokens (h : ∀ t ∈ ts, t.kind ≠ .eof) (hl : last.kind = .eof) (hk : k ≤ ts.length) :
    (ts ++ [last])[k]? = some ((ofTokens unit (ts ++ [last])).ahead k) := by
  rw [ahead, rest_ofTokens h hl, final_ofTokens h hl]
  obtain hlt | rfl := Nat.lt_or_eq_of_le hk
  · rw [List.getElem?_append_left hlt, List.getElem?_eq_getElem hlt, Option.getD_some]
  · rw [List.getElem?_concat_length, List.getElem?_eq_none (Nat.le_refl _), Option.getD_none, ← hl]

end Reading

/-! ### The first error -/

theorem ofTokens_of_error {tokens : List Token}
    (h : Parser.program (Reading.ofTokens unit tokens).rest.length (Reading.ofTokens unit tokens) =
      .error e) : Node.ofTokens unit tokens = .error e := by
  show Prod.fst <$> Parser.program _ (Reading.ofTokens unit tokens) = _
  rw [h]
  rfl

namespace Grammar

theorem Calls.unique {past : List TokenKind} {x y : String} (h : Calls past x) (h' : Calls past y) :
    x = y := by
  obtain ⟨p, rfl, -⟩ := h
  obtain ⟨q, hq, -⟩ := h'
  cases (List.append_inj' hq rfl).2
  rfl

/-- A name in the header of a class begins no primary. -/
theorem Calls.not_heads {past : List TokenKind} {x : String} (h : Calls past x) : ¬ Heads past := by
  obtain ⟨p, rfl, hfresh⟩ := h
  rintro ⟨q, c, hq⟩
  obtain rfl := (List.append_inj' hq rfl).1
  exact not_clean_concat_class q hfresh.2

theorem not_abandoned_of_not_mem {past : List TokenKind} (h : .keyword .kPrint ∉ past) :
    ¬ Abandoned past := by
  rintro ⟨q, v, r, rfl, -⟩
  simp at h

end Grammar

section

variable (h : ∀ t ∈ ts, t.kind ≠ .eof) (hl : last.kind = .eof)
include h hl

theorem kindsBefore_ofTokens (hk : k ≤ ts.length) :
    kindsBefore (ts ++ [last]) k = (Reading.ofTokens unit (ts ++ [last])).kinds.take k := by
  rw [Reading.kinds, Reading.rest_ofTokens h hl, kindsBefore, List.take_append_of_le_length hk,
    List.map_take]

/-- What may be taken up to the place `k` and then be gone on with is a beginning of a program. -/
theorem viable_of_completed (hk : k ≤ ts.length) {w : List TokenKind}
    (hw : Derivable unit ((Reading.ofTokens unit (ts ++ [last])).kinds.take k ++ w)) :
    Viable unit ((ts ++ [last]).take k) := by
  rw [← kindsBefore_ofTokens h hl hk, kindsBefore, List.take_append_of_le_length hk] at hw
  rw [List.take_append_of_le_length hk]
  exact viable_of_derivable (fun t ht => h t (List.mem_of_mem_take ht)) hw

/-- The name before the place `k` is what was read last there. -/
theorem span_of_name (d : List Declared) {p : List TokenKind} {x : String} (hk : k ≤ ts.length)
    (hp : kindsBefore (ts ++ [last]) k = p ++ [.name x]) :
    (ts ++ [last])[k - 1]?.map Token.span =
      some ((Reading.ofTokens unit (ts ++ [last])).behind k d).last := by
  rw [show kindsBefore (ts ++ [last]) k = (Reading.ofTokens unit (ts ++ [last])).kinds.take k from
    kindsBefore_ofTokens h hl hk] at hp
  obtain rfl : k = p.length + 1 := by
    have hlen := congrArg List.length hp
    rwa [List.length_take, Reading.length_kinds, Reading.rest_ofTokens h hl, Nat.min_eq_left hk,
      List.length_append] at hlen
  have hname : ((Reading.ofTokens unit (ts ++ [last])).ahead p.length).kind = .name x := by
    rw [Reading.ahead_kind, ← List.getElem?_take_of_lt (Nat.lt_succ_self p.length), hp,
      List.getElem?_concat_length]
    rfl
  rw [Nat.add_sub_cancel, Reading.getElem?_ofTokens h hl (by omega),
    Reading.last_behind (by rw [hname]; simp)]
  rfl

/-- What an error is said to point at behind the first `k` tokens is what it points at among all. -/
theorem reported_of_blames {d : List Declared} (hk : k ≤ ts.length)
    (blames : Parser.Blames (kindsBefore (ts ++ [last]) k)
      ((Reading.ofTokens unit (ts ++ [last])).behind k d) e)
    (hprint : ¬ Abandoned (kindsBefore (ts ++ [last]) k)) : Reported (ts ++ [last]) k e := by
  have htoken : (ts ++ [last])[k]? = some ((Reading.ofTokens unit (ts ++ [last])).behind k d).next := by
    rw [Reading.getElem?_ofTokens h hl hk, Reading.next, Reading.ahead_behind]
    rfl
  cases blames with
  | here span cool =>
    have hcool : (ts ++ [last])[k]?.map Token.kind = some (.char '(') →
        (∀ x, ¬ Calls (kindsBefore (ts ++ [last]) k) x) ∧ ¬ Heads (kindsBefore (ts ++ [last]) k) := by
      intro hopens
      rw [htoken] at hopens
      exact cool (Option.some.inj hopens)
    refine ⟨fun x hopens hcalls => absurd hcalls ((hcool hopens).1 x),
      fun hopens hheads => absurd hheads (hcool hopens).2, fun _ => ?_⟩
    rw [htoken, span]
    rfl
  | @call x hcalls next eq =>
    have hopens : (ts ++ [last])[k]?.map Token.kind = some (.char '(') := by
      rw [htoken, ← next]
      rfl
    refine ⟨fun y _ hy => ?_, fun _ hheads => absurd hheads hcalls.not_heads,
      fun hother => absurd hcalls ((hother hopens).1 x)⟩
    obtain rfl := hcalls.unique hy
    obtain ⟨p, hp, -⟩ := hcalls
    subst eq
    exact ⟨rfl, span_of_name h hl d hk hp⟩
  | parent hheads next span =>
    have hopens : (ts ++ [last])[k]?.map Token.kind = some (.char '(') := by
      rw [htoken, ← next]
      rfl
    refine ⟨fun x _ hcalls => absurd hheads hcalls.not_heads, fun _ _ => ?_,
      fun hother => absurd hheads (hother hopens).2⟩
    have hlt : k + 1 ≤ ts.length := by
      refine Nat.lt_of_le_of_ne hk fun heq => ?_
      rw [heq, List.getElem?_concat_length] at hopens
      rw [Option.map_some, hl] at hopens
      cases hopens
    rw [Reading.getElem?_ofTokens h hl hlt, span, Reading.ahead_behind]
    rfl
  | abandoned ha => exact absurd ha hprint

/-- Where tokens are no program, there is a first wrong one among them, and the error points at it, or at the
name of a call or the parent of a class beside it. -/
theorem ofTokens_reported (he : Node.ofTokens unit (ts ++ [last]) = .error e) :
    (∃ i, FirstWrong unit (ts ++ [last]) i) ∧
      ∀ i, FirstWrong unit (ts ++ [last]) i → ¬ Abandoned (kindsBefore (ts ++ [last]) i) →
        Reported (ts ++ [last]) i e := by
  have hnames : (Reading.ofTokens unit (ts ++ [last])).names = {} := Reading.names_of_declared rfl
  have hrest : (Reading.ofTokens unit (ts ++ [last])).rest = ts := Reading.rest_ofTokens h hl
  cases Parser.program_prompt (Reading.ofTokens unit (ts ++ [last])) with
  | advances hok cool =>
    have hread := ofTokens_eq_ok.2 ⟨_, hok.run _ _ (Nat.le_refl _) (.refl _ _)⟩
    rw [he] at hread
    cases hread
  | @fails e' k d le completed blames run alike =>
    have hk : k ≤ ts.length := by rwa [hrest] at le
    obtain rfl : e = e' := by
      have hread := ofTokens_of_error (run _ (Nat.le_refl _))
      rw [he] at hread
      cases hread
      rfl
    have hfirst : FirstWrong unit (ts ++ [last]) k := by
      refine ⟨by rw [List.length_append]; exact Nat.lt_succ_of_le hk, fun j hj => ?_, ?_⟩
      · obtain ⟨z, b, ns, hns⟩ := completed
        rw [hnames] at hns
        exact (viable_of_completed h hl hk ⟨ns, b, hns⟩).before hj
      · rintro ⟨more, last', root, -, hok⟩
        have hsame : ((ts ++ [last]).take (k + 1) ++ more ++ [last']).take (k + 1) =
            (ts ++ [last]).take (k + 1) := by
          rw [List.append_assoc, List.take_append_of_le_length, List.take_take, Nat.min_self]
          rw [List.length_take, List.length_append, List.length_singleton]
          omega
        obtain ⟨e', he'⟩ := alike _ _ (Nat.le_refl _) (Reading.agrees_ofTokens (Nat.succ_pos k) hsame)
        have hread := ofTokens_of_error he'
        rw [hok] at hread
        cases hread
    refine ⟨⟨k, hfirst⟩, fun i hi hprint => ?_⟩
    obtain rfl := hi.unique hfirst
    rw [List.nil_append, ← kindsBefore_ofTokens h hl hk] at blames
    exact reported_of_blames h hl hk blames hprint

end

/-! ### Wrong parentheses -/

/-- The tokens of the line `f()`, where no class `f` is declared. -/
def unknownCall : List Token :=
  [⟨.name "f", ⟨0, 1, 1, 1⟩⟩, ⟨.char '(', ⟨1, 2, 1, 2⟩⟩, ⟨.char ')', ⟨2, 3, 1, 3⟩⟩,
    ⟨.newline, ⟨3, 4, 1, 4⟩⟩]

/-- The tokens of the header `class A(B):`, before which no class stands. -/
def unknownParent : List Token :=
  [⟨.keyword .kClass, ⟨0, 5, 1, 1⟩⟩, ⟨.name "A", ⟨6, 7, 1, 7⟩⟩, ⟨.char '(', ⟨7, 8, 1, 8⟩⟩,
    ⟨.name "B", ⟨8, 9, 1, 9⟩⟩, ⟨.char ')', ⟨9, 10, 1, 10⟩⟩, ⟨.char ':', ⟨10, 11, 1, 11⟩⟩,
    ⟨.newline, ⟨11, 12, 1, 12⟩⟩]

/-- The mark behind the last line. -/
def endMark : Token := ⟨.eof, ⟨12, 12, 2, 1⟩⟩

theorem firstWrong_unknownCall : FirstWrong 0 (unknownCall ++ [endMark]) 1 where
  lt := by decide
  before j hj := by
    obtain rfl : j = 0 := by omega
    exact ⟨[⟨.newline, {}⟩], endMark, _, rfl, rfl⟩
  wrong := by
    rintro ⟨more, last, root, -, hok⟩
    cases hok

/-- The parenthesis is the first wrong token, and the error has the name before it. -/
theorem reported_unknownCall :
    Node.ofTokens 0 (unknownCall ++ [endMark]) = .error ⟨.unknownClass "f", ⟨0, 1, 1, 1⟩⟩ ∧
      FirstWrong 0 (unknownCall ++ [endMark]) 1 ∧
        Reported (unknownCall ++ [endMark]) 1 ⟨.unknownClass "f", ⟨0, 1, 1, 1⟩⟩ :=
  ⟨rfl, firstWrong_unknownCall,
    (ofTokens_reported (by decide) rfl rfl).2 1 firstWrong_unknownCall
      (not_abandoned_of_not_mem (by decide))⟩

theorem firstWrong_unknownParent : FirstWrong 0 (unknownParent ++ [endMark]) 2 where
  lt := by decide
  before j hj := by
    have hclass : Viable 0 ((unknownParent ++ [endMark]).take 2) :=
      ⟨[⟨.char ':', {}⟩, ⟨.newline, {}⟩, ⟨.indent, {}⟩, ⟨.keyword .kDef, {}⟩, ⟨.name "f", {}⟩,
        ⟨.char '(', {}⟩, ⟨.char ')', {}⟩, ⟨.char ':', {}⟩, ⟨.newline, {}⟩, ⟨.indent, {}⟩, ⟨.dedent, {}⟩,
        ⟨.dedent, {}⟩], endMark, _, rfl, rfl⟩
    exact hclass.before hj
  wrong := by
    rintro ⟨more, last, root, -, hok⟩
    have herror : ∀ r final, ∃ e, Parser.program (r.length + 3) ⟨0, ⟨0, 5, 1, 1⟩, unknownParent.take 3 ++ r,
        final, []⟩ = .error e := by
      intro r final
      cases r with
      | nil => exact ⟨_, rfl⟩
      | cons t r =>
        obtain ⟨k, span⟩ := t
        cases k with
        | _ => exact ⟨_, rfl⟩
    obtain ⟨e, he⟩ := herror ((more ++ [last]).takeWhile fun t => t.kind ≠ .eof)
      (((more ++ [last]).find? fun t => t.kind = .eof).map Token.span |>.getD {})
    have hread : Node.ofTokens 0 ((unknownParent ++ [endMark]).take 3 ++ more ++ [last]) = .error e :=
      ofTokens_of_error he
    rw [hok] at hread
    cases hread

/-- In the header of a class the error points at what stands for the parent, not at the parenthesis before
it, though there is no class to derive from. -/
theorem unknownParent_reported_behind :
    FirstWrong 0 (unknownParent ++ [endMark]) 2 ∧
      (∀ x, ¬ Calls (kindsBefore (unknownParent ++ [endMark]) 2) x) ∧
        ∃ e, Node.ofTokens 0 (unknownParent ++ [endMark]) = .error e ∧
          (unknownParent ++ [endMark])[2]?.map Token.span ≠ some e.span :=
  ⟨firstWrong_unknownParent, fun x hx => hx.not_heads ⟨[], "A", rfl⟩, _, rfl, by decide⟩

/-- The tokens of the line `print(1, f(2))`, where no class `f` is declared, and the mark behind it. -/
def unknownArgument : List Token :=
  [⟨.keyword .kPrint, ⟨0, 5, 1, 1⟩⟩, ⟨.char '(', ⟨5, 6, 1, 6⟩⟩, ⟨.number 1, ⟨6, 7, 1, 7⟩⟩,
    ⟨.char ',', ⟨7, 8, 1, 8⟩⟩, ⟨.name "f", ⟨9, 10, 1, 10⟩⟩, ⟨.char '(', ⟨10, 11, 1, 11⟩⟩,
    ⟨.number 2, ⟨11, 12, 1, 12⟩⟩, ⟨.char ')', ⟨12, 13, 1, 13⟩⟩, ⟨.char ')', ⟨13, 14, 1, 14⟩⟩,
    ⟨.newline, ⟨14, 15, 1, 15⟩⟩, ⟨.eof, ⟨15, 15, 2, 1⟩⟩]

theorem firstWrong_unknownArgument : FirstWrong 0 unknownArgument 5 where
  lt := by decide
  before j hj := by
    have hprint : Viable 0 (unknownArgument.take 5) :=
      ⟨[⟨.char ')', {}⟩, ⟨.newline, {}⟩], endMark, _, rfl, rfl⟩
    exact hprint.before hj
  wrong := by
    rintro ⟨more, last, root, -, hok⟩
    have hread : Node.ofTokens 0 (unknownArgument.take 6 ++ more ++ [last]) =
        .error ⟨.unexpectedToken ")" ",", ⟨7, 8, 1, 8⟩⟩ := ofTokens_of_error rfl
    rw [hok] at hread
    cases hread

/-- The parentheses behind `print` are those of its arguments, but the line is read once more without them, so
the error points at the comma and says nothing of the class. -/
theorem unknownArgument_reported_before :
    FirstWrong 0 unknownArgument 5 ∧ Calls (kindsBefore unknownArgument 5) "f" ∧
      Abandoned (kindsBefore unknownArgument 5) ∧
        Node.ofTokens 0 unknownArgument = .error ⟨.unexpectedToken ")" ",", ⟨7, 8, 1, 8⟩⟩ ∧
          ¬ Reported unknownArgument 5 ⟨.unexpectedToken ")" ",", ⟨7, 8, 1, 8⟩⟩ := by
  have hcalls : Calls (kindsBefore unknownArgument 5) "f" :=
    ⟨[.keyword .kPrint, .char '(', .number 1, .char ','], rfl, by simp [Fresh, Clean, line]⟩
  have habandoned : Abandoned (kindsBefore unknownArgument 5) := by
    have hone : Spells 0 ∅ (.expr .primary (.literal {} (.int 1))) [.number 1] := .literal (.number 1)
    exact ⟨[], [.char '(', .number 1, .char ','], [.name "f"], rfl,
      .inr ⟨0, ∅, _, [.number 1], rfl, hone.loosen (by decide)⟩, by decide⟩
  refine ⟨firstWrong_unknownArgument, hcalls, habandoned, rfl, fun hreported => ?_⟩
  have hclass := (hreported.call "f" rfl hcalls).1
  cases hclass

end ClassScript

import ClassScript.Proofs.ExpressionComplete
import ClassScript.Proofs.StatementSound

/-!
# What is a statement is read as one

A reader of statements takes every text that the grammar has for a tree and gives this tree.  Two
places need more than the greed of the readers: an assignment is told from an expression by its equals
sign, which no expression has, and a `print` is tried with parentheses around all arguments first,
which takes nothing that does not stand for the same tree.  Main statement: `program_complete`.
-/

namespace ClassScript

open Grammar

theorem Reading.Passed.rest {s s' : Reading} {w rest : List TokenKind} (h : s.Passed w s')
    (hs : s.kinds = w ++ rest) : s'.kinds = rest :=
  List.append_cancel_left (h.text.symm.trans hs)

namespace Grammar

/-- Marks of layout and the keywords of statements. -/
def reserved : List TokenKind :=
  [.newline, .dedent, .eof, .keyword .kElse, .keyword .kClass, .keyword .kIf, .keyword .kDef,
    .keyword .kReturn, .keyword .kPrint]

/-- No expression begins with a mark of layout or with the keyword of a statement. -/
theorem Rank.Begins.not_mem {r : Rank} {k : TokenKind} (h : r.Begins k) : k ∉ reserved := by
  obtain ⟨rfl, -⟩ | ⟨rfl, -⟩ | ⟨v, hv⟩ | ⟨x, rfl⟩ | rfl := h
  · decide
  · decide
  · cases hv <;> simp [reserved]
  · simp [reserved]
  · decide

theorem not_mem_commas {k : TokenKind} (hk : k ≠ .char ',') {ws : List (List TokenKind)}
    (h : ∀ w ∈ ws, k ∉ w) : k ∉ commas ws := by
  induction ws with
  | nil => exact List.not_mem_nil
  | cons w ws ih =>
    have hw := h w (.head _)
    have hws := ih fun v hv => h v (.tail _ hv)
    by_cases hne : ws = []
    · subst hne
      rwa [commas_singleton]
    · rw [commas_cons hne, List.mem_append, List.mem_cons]
      rintro (hm | hm | hm)
      · exact hw hm
      · exact hk hm
      · exact hws hm

theorem not_mem_parens {k : TokenKind} (ho : k ≠ .char '(') (hc : k ≠ .char ')')
    {w : List TokenKind} (h : k ∉ w) : k ∉ parens w := by
  simp [parens, ho, hc, h]

theorem mem_pathText {path : List String} {k : TokenKind} (h : k ∈ pathText path) :
    k = .char '.' ∨ ∃ x, k = .name x := by
  cases path with
  | nil => cases h
  | cons x xs =>
    rw [pathText_cons] at h
    simp only [List.mem_cons, List.mem_flatMap, List.not_mem_nil, or_false] at h
    obtain rfl | ⟨y, -, rfl | rfl⟩ := h
    · exact .inr ⟨x, rfl⟩
    · exact .inl rfl
    · exact .inr ⟨y, rfl⟩

/-- Tokens that stand in no expression. -/
def foreign : List TokenKind := [.char '=', .newline, .keyword .kClass, .keyword .kDef, .eof]

theorem foreign_not_mem_pathText {k : TokenKind} (hk : k ∈ foreign) (path : List String) :
    k ∉ pathText path := by
  intro h
  obtain rfl | ⟨x, rfl⟩ := mem_pathText h
  · exact absurd hk (by decide)
  · simp [foreign] at hk

theorem token_not_foreign (op : BinOp) : op.token ∉ foreign := by
  rcases op with ⟨⟨⟩⟩ | ⟨⟨⟩⟩ <;> decide

theorem comparatorToken_not_foreign (op : Comparator) : comparatorToken op ∉ foreign := by
  cases op <;> decide

/-- There is no equals sign in an expression, no end of a line or of a program, and no header. -/
theorem Spells.foreign_not_mem {unit : Nat} {known : Set String} {p : Phrase} {w : List TokenKind}
    (h : Spells unit known p w) {k : TokenKind} (hk : k ∈ foreign) : k ∉ w := by
  have hne : ∀ {l : TokenKind}, l ∉ foreign → k ≠ l := fun hl => ne_of_mem_of_not_mem hk hl
  have hopen : k ≠ .char '(' := hne (by decide)
  have hclose : k ≠ .char ')' := hne (by decide)
  have hname : ∀ x, k ≠ .name x := fun x => hne (by simp [foreign])
  induction h with
  | binary more first rank rest ih ih' =>
    rw [List.mem_append, List.mem_flatMap]
    rintro (hm | ⟨p, hp, hm⟩)
    · exact ih hm
    · obtain hm | hm := List.mem_cons.1 hm
      · exact hne (token_not_foreign p.1) hm
      · exact ih' p hp hm
  | not arg ih => exact List.not_mem_cons_of_ne_of_not_mem (hne (by decide)) ih
  | compare op left right ih ih' =>
    rw [List.mem_append, List.mem_cons]
    rintro (hm | hm | hm)
    · exact ih hm
    · exact hne (comparatorToken_not_foreign op) hm
    · exact ih' hm
  | minus arg ih => exact List.not_mem_cons_of_ne_of_not_mem (hne (by decide)) ih
  | call more first rest ih ih' =>
    rw [List.mem_append, List.mem_flatMap]
    rintro (hm | ⟨p, hp, hm⟩)
    · exact ih hm
    · rw [List.mem_cons, List.mem_cons] at hm
      obtain hm | hm | hm := hm
      · exact hne (by decide) hm
      · exact hname _ hm
      · exact ih' p hp hm
  | literal hc =>
    rw [List.mem_singleton]
    exact hne (by cases hc <;> simp [foreign])
  | paren inner ih => exact not_mem_parens hopen hclose ih
  | str free arg ih =>
    exact List.not_mem_cons_of_ne_of_not_mem (hname _) (not_mem_parens hopen hclose ih)
  | new declared args ih => exact List.not_mem_cons_of_ne_of_not_mem (hname _) ih
  | @lookup path h => exact foreign_not_mem_pathText hk path
  | dottedCall h args ih =>
    rw [List.mem_append]
    rintro (hm | hm)
    · exact foreign_not_mem_pathText hk _ hm
    · exact ih hm
  | args items each ih =>
    refine not_mem_parens hopen hclose (not_mem_commas (hne (by decide)) fun w hw => ?_)
    obtain ⟨p, hp, rfl⟩ := List.mem_map.1 hw
    exact ih p hp

/-- An expression that begins with a parenthesis begins with an expression in parentheses. -/
theorem Spells.paren_prefix {unit : Nat} {known : Set String} {r : Rank} {n : Node}
    {v : List TokenKind} (h : Spells unit known (.expr r n) (.char '(' :: v)) :
    ∃ n' u rest, .char '(' :: v = parens u ++ rest ∧
      Spells unit known (.expr .disjunction n') u := by
  generalize hp : Phrase.expr r n = p at h
  generalize hw : TokenKind.char '(' :: v = w at h
  induction h generalizing r n v with
  | @binary r' n' w' more first rank rest ih ih' =>
    cases hp
    obtain ⟨k, v', rfl, -⟩ := first.begins
    obtain ⟨rfl, -⟩ := List.cons.inj hw
    obtain ⟨n', u, rest, hu, hsp⟩ := ih rfl rfl
    exact ⟨n', u, _, by rw [hu, List.append_assoc], hsp⟩
  | not arg ih => cases hw
  | compare op left right ih ih' =>
    obtain ⟨k, v', rfl, -⟩ := left.begins
    obtain ⟨rfl, -⟩ := List.cons.inj hw
    obtain ⟨n', u, rest, hu, hsp⟩ := ih rfl rfl
    exact ⟨n', u, _, by rw [hu, List.append_assoc], hsp⟩
  | minus arg ih => cases hw
  | call more first rest ih ih' =>
    obtain ⟨k, v', rfl, -⟩ := first.begins
    obtain ⟨rfl, -⟩ := List.cons.inj hw
    obtain ⟨n', u, rest, hu, hsp⟩ := ih rfl rfl
    exact ⟨n', u, _, by rw [hu, List.append_assoc], hsp⟩
  | literal hc => cases hc <;> cases hw
  | @paren n' u inner ih => exact ⟨n', u, [], (List.append_nil _).symm, inner⟩
  | str free arg ih => cases hw
  | new declared args ih => cases hw
  | @lookup path h =>
    obtain ⟨x, xs, rfl⟩ := List.exists_cons_of_ne_nil h
    rw [pathText_cons] at hw
    cases hw
  | @dottedCall path m ns w h args ih =>
    obtain ⟨x, xs, rfl⟩ := List.exists_cons_of_ne_nil h
    rw [List.cons_append, pathText_cons] at hw
    cases hw
  | args items each ih => cases hp

end Grammar

namespace Parser

variable {α β : Type} {unit bound : Nat} {known : Set String}

/-! ### Assignments -/

theorem isAssignment_more_iff {ts : List Token} :
    isAssignment.more ts = true ↔ ∃ (xs : List String) (v : List TokenKind),
      ts.map Token.kind = (xs.flatMap fun x => [.char '.', .name x]) ++ .char '=' :: v := by
  constructor
  · intro h
    fun_induction isAssignment.more ts with
    | case1 sp x sp' rest ih =>
      obtain ⟨xs, v, hv⟩ := ih h
      exact ⟨x :: xs, v, by simp [hv]⟩
    | case2 sp rest => exact ⟨[], _, rfl⟩
    | case3 ts h₁ h₂ => cases h
  · rintro ⟨xs, v, hv⟩
    induction xs generalizing ts with
    | nil =>
      obtain ⟨⟨k, sp⟩, ts, rfl, rfl, -⟩ := List.map_eq_cons_iff.1 hv
      rfl
    | cons x xs ih =>
      obtain ⟨⟨k, sp⟩, us, rfl, rfl, hu⟩ := List.map_eq_cons_iff.1 hv
      obtain ⟨⟨k, sp'⟩, ts, rfl, rfl, ht⟩ := List.map_eq_cons_iff.1 hu
      show isAssignment.more ts = true
      exact ih ht

/-- An assignment follows if names with dots between them and an equals sign do. -/
theorem isAssignment_iff {ts : List Token} :
    isAssignment ts = true ↔
      ∃ path v, path ≠ [] ∧ ts.map Token.kind = pathText path ++ .char '=' :: v := by
  constructor
  · intro h
    match ts, h with
    | ⟨.name x, sp⟩ :: ts, h =>
      obtain ⟨xs, v, hv⟩ := isAssignment_more_iff.1 h
      exact ⟨x :: xs, v, by simp, by rw [pathText_cons, List.map_cons, hv]; rfl⟩
  · rintro ⟨path, v, hne, hv⟩
    obtain ⟨x, xs, rfl⟩ := List.exists_cons_of_ne_nil hne
    rw [pathText_cons] at hv
    obtain ⟨⟨k, sp⟩, ts, rfl, rfl, ht⟩ := List.map_eq_cons_iff.1 hv
    exact isAssignment_more_iff.2 ⟨xs, v, ht⟩

/-- What is an expression up to the end of the line is no assignment. -/
theorem not_isAssignment {p : Phrase} {w rest : List TokenKind} {s : Reading}
    (h : Spells unit known p w) (hs : s.kinds = w ++ .newline :: rest) :
    isAssignment s.rest = false := by
  rw [Bool.eq_false_iff]
  intro hi
  obtain ⟨path, v, -, hv⟩ := isAssignment_iff.1 hi
  have heq : w ++ .newline :: rest = pathText path ++ .char '=' :: v := hs.symm.trans hv
  obtain ⟨u, hp, hu⟩ | ⟨u, hw, hu⟩ := List.append_eq_append_iff.1 heq
  · cases u with
    | nil => cases hu
    | cons k u =>
      obtain ⟨rfl, -⟩ := List.cons.inj hu
      have hm : TokenKind.newline ∈ pathText path := by
        rw [hp]
        simp
      obtain h | ⟨x, h⟩ := mem_pathText hm
      · cases h
      · cases h
  · cases u with
    | nil => cases hu
    | cons k u =>
      obtain ⟨rfl, -⟩ := List.cons.inj hu
      exact h.foreign_not_mem (k := .char '=') (by decide) (by rw [hw]; simp)

/-! ### Statements that end with their line -/

theorem test_reads {n : Node} {w : List TokenKind} (h : Spells unit known (.expr .disjunction n) w)
    (hb : w.length ≤ bound) :
    Reads Node.bare (test bound) unit known n w Rank.disjunction.Stops :=
  expression_complete (l := .test) h hb

theorem tests_read {items : List (List TokenKind × Node)} (hne : items ≠ [])
    (each : ∀ p ∈ items, Spells unit known (.expr .disjunction p.2) p.1)
    (hb : (commas (items.map Prod.fst)).length ≤ bound) :
    Reads (List.map Node.bare) (commaList (test bound) bound) unit known (items.map Prod.snd)
      (commas (items.map Prod.fst)) (fun k => Rank.disjunction.Stops k ∧ k ≠ .char ',') := by
  have hlen := length_le_commas fun w (hw : w ∈ items.map Prod.fst) => by
    obtain ⟨p, hp, rfl⟩ := List.mem_map.1 hw
    exact List.length_pos_iff.1 (each p hp).length_pos
  rw [List.length_map] at hlen
  refine commaList_reads (stops_of_mem .disjunction (by simp)) hne (fun p hp => ?_) (by omega)
  have := length_le_of_mem_commas (List.mem_map_of_mem (f := Prod.fst) hp)
  exact test_reads (each p hp) (by omega)

theorem parenthesized_test_reads {ns : List Node} {w : List TokenKind}
    (h : Spells unit known (.args ns) w) (hb : w.length ≤ bound) :
    Reads (List.map Node.bare) (parenthesized (test bound) bound) unit known ns w fun _ => True := by
  cases h with
  | args items each =>
    rw [parens_length] at hb
    refine parenthesized_expressions_read (fun p hp => (each p hp).begins) (fun p hp => ?_) (by omega)
    have := length_le_of_mem_commas (List.mem_map_of_mem (f := Prod.fst) hp)
    exact test_reads (each p hp) (by omega)

theorem lineArguments_some {s s' : Reading} {ns : List Node} :
    lineArguments bound s = .ok (some ns, s') ↔
      parenthesized (test bound) bound s = .ok (ns, s') ∧ s'.next.kind = .newline := by
  unfold lineArguments
  constructor
  · intro h
    split at h
    · split at h
      · cases h
        exact ⟨‹_›, ‹_›⟩
      · cases h
    · cases h
  · rintro ⟨h, hk⟩
    rw [h]
    dsimp only
    rw [if_pos hk]

theorem lineArguments_total (bound : Nat) (s : Reading) :
    (∃ ns s', lineArguments bound s = .ok (some ns, s')) ∨ lineArguments bound s = .ok (none, s) := by
  unfold lineArguments
  split
  · split
    · exact .inl ⟨_, _, rfl⟩
    · exact .inr rfl
  · exact .inr rfl

/-- What stands behind the first of the expressions of a line. -/
theorem line_tail (p : List TokenKind × Node) (items : List (List TokenKind × Node))
    (rest : List TokenKind) :
    ∃ tail, commas ((p :: items).map Prod.fst) ++ .newline :: rest = p.1 ++ tail ∧
      (items = [] ∧ tail = .newline :: rest ∨ tail.headD .eof = .char ',') := by
  by_cases hi : items = []
  · subst hi
    exact ⟨_, by rw [List.map_singleton, commas_singleton], .inl ⟨rfl, rfl⟩⟩
  · refine ⟨.char ',' :: (commas (items.map Prod.fst) ++ .newline :: rest), ?_, .inr rfl⟩
    rw [List.map_cons, commas_cons (by simpa using hi), List.append_assoc, List.cons_append]

/-- Where the arguments of a `print` may be taken with their parentheses or without, there is but one
of them, and it is the same. -/
theorem lineArguments_unique {items : List (List TokenKind × Node)}
    (each : ∀ p ∈ items, Spells unit known (.expr .disjunction p.2) p.1)
    (hb : (commas (items.map Prod.fst)).length ≤ bound) {s s' : Reading} {rest : List TokenKind}
    (hu : s.unit = unit) (hn : s.names.declared = known)
    (hs : s.kinds = commas (items.map Prod.fst) ++ .newline :: rest) {as : List Node}
    (hl : lineArguments bound s = .ok (some as, s')) :
    s.Took (commas (items.map Prod.fst)) s' ∧ as.map Node.bare = items.map Prod.snd := by
  obtain ⟨hp, hnew⟩ := lineArguments_some.1 hl
  have hopen : s.next.kind = .char '(' := by
    obtain ⟨_, _, he, -⟩ := bind_eq_ok.1 hp
    exact (expect_eq_ok.1 he).1
  have hend := Reading.kinds_of_next_kind hnew (by simp)
  cases items with
  | nil =>
    rw [Reading.next_kind_of_cons hs] at hopen
    cases hopen
  | cons p items =>
    have hfirst := each p (.head _)
    have hpb : p.1.length ≤ bound :=
      (length_le_of_mem_commas (List.mem_map_of_mem (.head _))).trans hb
    obtain ⟨tail, htail, hlast⟩ := line_tail p items rest
    rw [htail] at hs
    obtain ⟨k, v, hv, -⟩ := hfirst.begins
    obtain rfl : k = .char '(' := by
      rw [hv] at hs
      rw [← hopen, Reading.next_kind_of_cons hs]
    rw [hv] at hfirst
    obtain ⟨e, u, rest', hsplit, hsp⟩ := hfirst.paren_prefix
    rw [← hv] at hfirst hsplit
    have hub : (parens u).length ≤ bound := by
      have := congrArg List.length hsplit
      rw [List.length_append] at this
      omega
    -- the parentheses around the first expression are all that was taken
    have harg : Spells unit known (.args [e]) (parens u) := by
      have := Spells.args [(u, e)] (by simpa using hsp)
      simpa using this
    have hs' : s.kinds = parens u ++ (rest' ++ tail) := by
      rw [hs, hsplit, List.append_assoc]
    obtain ⟨as', t, hp', ht, has⟩ :=
      parenthesized_test_reads harg hub s _ hu hn hs' trivial
    rw [hp] at hp'
    cases hp'
    have hrest := ht.rest hs'
    rw [hrest] at hend
    have hparens := (Spells.paren hsp).loosen (r := .disjunction) (by decide)
    have hstop : Rank.disjunction.Stops (tail.headD .eof) := by
      obtain ⟨-, rfl⟩ | hcomma := hlast
      · exact stops_of_mem _ (by simp)
      · rw [hcomma]
        exact stops_of_mem _ (by simp)
    have hstop' : Rank.disjunction.Stops ((rest' ++ tail).headD .eof) := by
      rw [hend]
      exact stops_of_mem _ (by simp)
    obtain ⟨hpe, hpu, htl⟩ := (test_reads hfirst hpb).unique (test_reads hparens hub) hu hn hs hs'
      hstop hstop'
    rw [hend] at htl
    obtain ⟨rfl, -⟩ | hcomma := hlast
    · rw [List.map_singleton, commas_singleton, hpu]
      exact ⟨ht, by rw [has, ← hpe]; rfl⟩
    · rw [htl] at hcomma
      cases hcomma

/-- The readers of the statements that end with their line leave the end of the line to be taken. -/
abbrev ReadsLine (p : Parser Node) (unit : Nat) (known : Set String) (n : Node)
    (w : List TokenKind) : Prop :=
  Reads Node.bare p unit known n w (· = .newline)

theorem stops_of_newline {r : Rank} {k : TokenKind} (h : k = .newline) : r.Stops k :=
  stops_of_mem r (by simp [h])

theorem returned_reads {n : Node} {w : List TokenKind}
    (h : Spells unit known (.expr .disjunction n) w) (hb : w.length ≤ bound) (start : Span) :
    ReadsLine (returned bound start) unit known (.ret {} n) w := by
  intro s rest hu hn hs hk
  obtain ⟨a, s', ha, ht, rfl⟩ := test_reads h hb s rest hu hn hs (stops_of_newline hk)
  refine ⟨.ret (start.merge a.span) a, s', ?_, ht, by rw [Node.bare]⟩
  obtain ⟨k, v, rfl, hbegin⟩ := h.begins
  have hne : s.next.kind ≠ .newline := by
    rw [Reading.next_kind_of_cons hs]
    rintro rfl
    exact hbegin.not_mem (by decide)
  unfold returned
  rw [bind_of_ok (nextIs_run _ s), decide_eq_false hne, if_neg (by simp), bind_of_ok ha]
  rfl

theorem returned_none_reads (start : Span) :
    ReadsLine (returned bound start) unit known (.ret {} (.literal {} .none)) [] := by
  intro s rest hu hn hs hk
  have hnew : s.next.kind = .newline := by
    rw [headD_next hs]
    exact hk
  refine ⟨.ret (start.merge start) (.literal start .none), s, ?_, .refl s,
    by rw [Node.bare, Node.bare]⟩
  unfold returned
  rw [bind_of_ok (nextIs_run _ s), decide_eq_true hnew, if_pos rfl]
  rfl

theorem printed_args_reads {ns : List Node} {w : List TokenKind} (h : Spells unit known (.args ns) w)
    (hb : w.length ≤ bound) (start : Span) :
    ReadsLine (printed bound start) unit known (.print {} ns) w := by
  intro s rest hu hn hs hk
  obtain ⟨as, s', ha, ht, rfl⟩ := parenthesized_test_reads h hb s rest hu hn hs trivial
  have hnew : s'.next.kind = .newline := by
    rw [headD_next (ht.rest hs)]
    exact hk
  refine ⟨.print (start.merge s'.last) as, s', ?_, ht, by rw [Node.bare]⟩
  unfold printed
  rw [bind_of_ok (lineArguments_some.2 ⟨ha, hnew⟩)]
  rfl

theorem printed_reads {items : List (List TokenKind × Node)}
    (each : ∀ p ∈ items, Spells unit known (.expr .disjunction p.2) p.1)
    (hb : (commas (items.map Prod.fst)).length ≤ bound) (start : Span) :
    ReadsLine (printed bound start) unit known (.print {} (items.map Prod.snd))
      (commas (items.map Prod.fst)) := by
  intro s rest hu hn hs hk
  obtain ⟨rest, rfl⟩ : ∃ v, rest = .newline :: v := by
    cases rest with
    | nil => cases hk
    | cons k v => exact ⟨v, by rw [show k = .newline from hk]⟩
  unfold printed
  obtain ⟨as, s', hl⟩ | hl := lineArguments_total bound s
  · obtain ⟨ht, has⟩ := lineArguments_unique each hb hu hn hs hl
    refine ⟨.print (start.merge s'.last) as, s', ?_, ht, by rw [Node.bare, has]⟩
    rw [bind_of_ok hl]
    rfl
  · by_cases hi : items = []
    · subst hi
      refine ⟨.print (start.merge s.last) [], s, ?_, .refl s, by rw [Node.bare]; rfl⟩
      rw [bind_of_ok hl]
      dsimp only
      rw [bind_of_ok (nextIs_run _ s), decide_eq_true (Reading.next_kind_of_cons hs), if_pos rfl]
      rfl
    · obtain ⟨as, s', ha, ht, has⟩ := tests_read hi each hb s _ hu hn hs
        ⟨stops_of_mem _ (by simp), by simp⟩
      refine ⟨.print (start.merge s'.last) as, s', ?_, ht, by rw [Node.bare, has]⟩
      have hne : s.next.kind ≠ .newline := by
        obtain ⟨p, items, rfl⟩ := List.exists_cons_of_ne_nil hi
        obtain ⟨tail, htail, -⟩ := line_tail p items rest
        obtain ⟨k, v, hv, hbegin⟩ := (each p (.head _)).begins
        rw [htail, hv] at hs
        rw [Reading.next_kind_of_cons hs]
        rintro rfl
        exact hbegin.not_mem (by decide)
      rw [bind_of_ok hl]
      dsimp only
      rw [bind_of_ok (nextIs_run _ s), decide_eq_false hne, if_neg (by simp), bind_of_ok ha]
      rfl

/-- The three parts of an assignment are read one behind the other. -/
theorem assignment_parts {path : List String} (hne : path ≠ []) {n : Node} {w : List TokenKind}
    (h : Spells unit known (.expr .disjunction n) w)
    (hb : (pathText path ++ .char '=' :: w).length ≤ bound) {s : Reading} {rest : List TokenKind}
    (hu : s.unit = unit) (hn : s.names.declared = known)
    (hs : s.kinds = (pathText path ++ .char '=' :: w) ++ rest) (hk : rest.headD .eof = .newline) :
    ∃ s₁ a s', dottedName bound s = .ok (path, s₁) ∧ s₁.next.kind = .char '=' ∧
      test bound s₁.advance = .ok (a, s') ∧ s.Took (pathText path ++ .char '=' :: w) s' ∧
      a.bare = n := by
  rw [List.length_append, List.length_cons] at hb
  have hlen := length_le_pathText path
  have hw : w.length ≤ bound := by omega
  rw [List.append_assoc, List.cons_append] at hs
  obtain ⟨s₁, hp, ht⟩ := dottedName_reads hne (m := bound) (by omega) hs (by simp)
  have heq := ht.rest hs
  obtain ⟨hone, hin⟩ := took_one heq (by simp)
  have ht' := ht.trans hone
  obtain ⟨a, s', ha, hta, hf⟩ := test_reads h hw s₁.advance rest (ht'.unit.trans hu)
    (by rw [ht'.names, hn]) hin (stops_of_newline hk)
  exact ⟨s₁, a, s', hp, Reading.next_kind_of_cons heq, ha, ht.trans (hone.trans hta), hf⟩

theorem assign_reads {x : String} {n : Node} {w : List TokenKind}
    (h : Spells unit known (.expr .disjunction n) w)
    (hb : (pathText [x] ++ .char '=' :: w).length ≤ bound) :
    ReadsLine (assignment bound) unit known (.assign {} x n) (pathText [x] ++ .char '=' :: w) := by
  intro s rest hu hn hs hk
  obtain ⟨s₁, a, s', hp, heq, ha, ht, rfl⟩ :=
    assignment_parts (List.cons_ne_nil x []) h hb hu hn hs hk
  refine ⟨.assign (s.next.span.merge a.span) x a, s', ?_, ht, by rw [Node.bare]⟩
  unfold assignment
  rw [bind_of_ok (peek_run s), bind_of_ok hp, bind_of_ok (expect_of_next heq), bind_of_ok ha]
  rfl

theorem setField_reads {path : List String} (hne : path ≠ []) {f : String} {n : Node}
    {w : List TokenKind} (h : Spells unit known (.expr .disjunction n) w)
    (hb : (pathText (path ++ [f]) ++ .char '=' :: w).length ≤ bound) :
    ReadsLine (assignment bound) unit known (.setField {} path f n)
      (pathText (path ++ [f]) ++ .char '=' :: w) := by
  intro s rest hu hn hs hk
  obtain ⟨s₁, a, s', hp, heq, ha, ht, rfl⟩ := assignment_parts (by simp) h hb hu hn hs hk
  refine ⟨.setField (s.next.span.merge a.span) path f a, s', ?_, ht, by rw [Node.bare]⟩
  unfold assignment
  rw [bind_of_ok (peek_run s), bind_of_ok hp, bind_of_ok (expect_of_next heq), bind_of_ok ha]
  have hpre : (path ++ [f]).dropLast = path := List.dropLast_concat
  have hlast : (path ++ [f]).getLastD "" = f := List.getLastD_concat
  obtain ⟨x, y, xs, hlong⟩ : ∃ x y xs, path ++ [f] = x :: y :: xs := by
    match path, hne with
    | [x], _ => exact ⟨x, f, [], rfl⟩
    | x :: y :: xs, _ => exact ⟨x, y, xs ++ [f], rfl⟩
  rw [hlong] at hpre hlast ⊢
  show Except.ok (Node.setField _ (x :: y :: xs).dropLast ((x :: y :: xs).getLastD "") a, s') = _
  rw [hpre, hlast]

/-- The reader of a line tells by the first token which statement it is. -/
theorem simple_of_return {s : Reading} {w : List TokenKind}
    (hs : s.kinds = .keyword .kReturn :: w) :
    simple bound s = returned bound s.next.span s.advance := by
  unfold simple
  rw [bind_of_ok (peek_run s), bind_of_ok (accept_of_next (Reading.next_kind_of_cons hs)),
    if_pos rfl]

theorem simple_of_print {s : Reading} {w : List TokenKind}
    (hs : s.kinds = .keyword .kPrint :: w) :
    simple bound s = printed bound s.next.span s.advance := by
  have hne := Reading.next_kind_ne_of_cons (k := .keyword .kReturn) hs (by decide)
  unfold simple
  rw [bind_of_ok (peek_run s), bind_of_ok (accept_of_ne hne), if_neg (by simp),
    bind_of_ok (accept_of_next (Reading.next_kind_of_cons hs)), if_pos rfl]

theorem simple_of_not_keyword {s : Reading} (hr : s.next.kind ≠ .keyword .kReturn)
    (hp : s.next.kind ≠ .keyword .kPrint) :
    simple bound s = if isAssignment s.rest then assignment bound s else test bound s := by
  unfold simple
  rw [bind_of_ok (peek_run s), bind_of_ok (accept_of_ne hr), if_neg (by simp),
    bind_of_ok (accept_of_ne hp), if_neg (by simp)]
  show (if isAssignment s.rest then _ else _ : Parser Node) s = _
  split <;> rfl

theorem simple_reads_behind {k : TokenKind} (hk : k ≠ .eof) {q : Span → Parser Node}
    (enter : ∀ s v, s.kinds = k :: v → simple bound s = q s.next.span s.advance) {n : Node}
    {w : List TokenKind} (h : ∀ start, ReadsLine (q start) unit known n w) :
    ReadsLine (simple bound) unit known n (k :: w) := by
  intro s rest hu hn hs hnew
  rw [List.cons_append] at hs
  obtain ⟨hone, hin⟩ := took_one hs hk
  obtain ⟨a, s', ha, ht, hf⟩ := h s.next.span s.advance rest (hone.unit.trans hu)
    (by rw [hone.names, hn]) hin hnew
  refine ⟨a, s', ?_, hone.trans ht, hf⟩
  rw [enter s _ hs]
  exact ha

theorem simple_reads_assignment {path : List String} (hne : path ≠ []) {n : Node}
    {w : List TokenKind}
    (h : ReadsLine (assignment bound) unit known n (pathText path ++ .char '=' :: w)) :
    ReadsLine (simple bound) unit known n (pathText path ++ .char '=' :: w) := by
  intro s rest hu hn hs hk
  obtain ⟨a, s', ha, ht, hf⟩ := h s rest hu hn hs hk
  refine ⟨a, s', ?_, ht, hf⟩
  rw [List.append_assoc, List.cons_append] at hs
  have hi : isAssignment s.rest = true := isAssignment_iff.2 ⟨path, _, hne, hs⟩
  obtain ⟨x, xs, rfl⟩ := List.exists_cons_of_ne_nil hne
  rw [pathText_cons] at hs
  rw [simple_of_not_keyword (Reading.next_kind_ne_of_cons hs (by simp))
    (Reading.next_kind_ne_of_cons hs (by simp)), if_pos hi]
  exact ha

theorem simple_reads_test {n : Node} {w : List TokenKind}
    (h : Spells unit known (.expr .disjunction n) w) (hb : w.length ≤ bound) :
    ReadsLine (simple bound) unit known n w := by
  intro s rest hu hn hs hk
  obtain ⟨rest, rfl⟩ : ∃ v, rest = .newline :: v := by
    cases rest with
    | nil => cases hk
    | cons k v => exact ⟨v, by rw [show k = .newline from hk]⟩
  obtain ⟨a, s', ha, ht, hf⟩ := test_reads h hb s _ hu hn hs (stops_of_newline hk)
  refine ⟨a, s', ?_, ht, hf⟩
  have hi := not_isAssignment h hs
  obtain ⟨k, v, rfl, hbegin⟩ := h.begins
  have hret : k ≠ .keyword .kReturn := fun h => hbegin.not_mem (h ▸ by decide)
  have hprint : k ≠ .keyword .kPrint := fun h => hbegin.not_mem (h ▸ by decide)
  rw [simple_of_not_keyword (Reading.next_kind_ne_of_cons hs hret)
    (Reading.next_kind_ne_of_cons hs hprint), hi, if_neg (by simp)]
  exact ha

/-! ### Blocks -/

/-- In a program `unit`, behind the class names `a`, `p` takes the text `w` and gives `x`, told by
`f`, with the class names `b` behind it, if the token behind the text is one of those in `ok`. -/
def Reaches (f : α → β) (p : Parser α) (unit : Nat) (a : ClassNames) (x : β) (w : List TokenKind)
    (b : ClassNames) (ok : TokenKind → Prop) : Prop :=
  ∀ s rest, s.unit = unit → s.names = a → s.kinds = w ++ rest → ok (rest.headD .eof) →
    ∃ y s', p s = .ok (y, s') ∧ s.Passed w s' ∧ s'.names = b ∧ f y = x

variable {stmt : Parser Node} {a b d : ClassNames}

/-- Where no class, no conditional and no method begins, a line is read. -/
theorem statementOver_of_line {s : Reading} {k : TokenKind} {w : List TokenKind}
    (hs : s.kinds = k :: w) (hk : k ∉ [.keyword .kClass, .keyword .kIf, .keyword .kDef]) :
    statementOver bound stmt s = (do let n ← simple bound; expect .newline; return n : Parser Node) s := by
  unfold statementOver
  rw [bind_of_ok (peek_run s), Reading.next_kind_of_cons hs]
  split
  · exact absurd (by simp) hk
  · exact absurd (by simp) hk
  · exact absurd (by simp) hk
  · rfl

theorem line_reaches {n : Node} {w : List TokenKind} {k : TokenKind} {v : List TokenKind}
    (hw : w ++ [.newline] = k :: v)
    (hk : k ∉ [.keyword .kClass, .keyword .kIf, .keyword .kDef])
    (h : ReadsLine (simple bound) unit a.declared n w) (ok : TokenKind → Prop) :
    Reaches Node.bare (statementOver bound stmt) unit a n (w ++ [.newline]) a ok := by
  intro s rest hu hn hs _
  have hs' := hs
  rw [hw, List.cons_append] at hs'
  rw [List.append_assoc] at hs
  obtain ⟨m, s', hm, ht, hf⟩ := h s _ hu (by rw [hn]) hs rfl
  have hnew := ht.rest hs
  obtain ⟨hone, -⟩ := took_one (k := .newline) hnew (by simp)
  have hend := ht.trans hone
  refine ⟨m, s'.advance, ?_, hend.passed, by rw [hend.names, hn], hf⟩
  rw [statementOver_of_line hs' hk, bind_of_ok hm,
    bind_of_ok (expect_of_next (Reading.next_kind_of_cons (k := .newline) hnew))]
  rfl

/-- No item is read where items should stop. -/
theorem manyUntil_nil_reaches {f : α → β} {stop : TokenKind → Bool} {item : Parser α} {m : Nat} :
    Reaches (List.map f) (manyUntil stop item m) unit a [] [] a (stop · = true) := by
  intro s rest hu hn hs hk
  refine ⟨[], s, ?_, (Reading.Took.refl s).passed, hn, rfl⟩
  have hstop : stop s.next.kind = true := by
    rw [headD_next hs]
    exact hk
  cases m with
  | zero => rfl
  | succ m =>
    unfold manyUntil
    rw [bind_of_ok (peek_run s), if_pos hstop]
    rfl

/-- One item and then others, if what stands behind the first does not spoil it. -/
theorem manyUntil_cons_reaches {f : α → β} {stop : TokenKind → Bool} {item : Parser α} {m : Nat}
    {x : β} {xs : List β} {u v : List TokenKind} {ok : TokenKind → Prop}
    (begins : ∃ k w, u = k :: w ∧ stop k = false) (first : Reaches f item unit a x u b ok)
    (behind : ∀ rest : List TokenKind, stop (rest.headD .eof) = true → ok ((v ++ rest).headD .eof))
    (rest : Reaches (List.map f) (manyUntil stop item m) unit b xs v d (stop · = true)) :
    Reaches (List.map f) (manyUntil stop item (m + 1)) unit a (x :: xs) (u ++ v) d
      (stop · = true) := by
  intro s after hu hn hs hend
  rw [List.append_assoc] at hs
  obtain ⟨y, s₁, hy, hp, hnames, hf⟩ := first s _ hu hn hs (behind after hend)
  obtain ⟨ys, s₂, hys, hp', hnames', hfs⟩ := rest s₁ after (hp.unit.trans hu) hnames (hp.rest hs)
    hend
  obtain ⟨k, w, rfl, hk⟩ := begins
  refine ⟨y :: ys, s₂, ?_, hp.trans hp', hnames', by rw [List.map_cons, hf, hfs]⟩
  unfold manyUntil
  rw [bind_of_ok (peek_run s), Reading.next_kind_of_cons hs, hk, if_neg (by simp), bind_of_ok hy,
    bind_of_ok hys]
  rfl

theorem manyUntil_uncons {stop : TokenKind → Bool} {item : Parser α} {m : Nat} {s s' : Reading}
    {xs : List α} (h : stop s.next.kind = false)
    (hxs : manyUntil stop item (m + 1) s = .ok (xs, s')) :
    ∃ x s₁ ys, item s = .ok (x, s₁) ∧ manyUntil stop item m s₁ = .ok (ys, s') ∧ xs = x :: ys := by
  unfold manyUntil at hxs
  rw [bind_of_ok (peek_run s), h, if_neg (by simp)] at hxs
  obtain ⟨x, s₁, hx, hxs⟩ := bind_eq_ok.1 hxs
  obtain ⟨ys, s₂, hys, hxs⟩ := bind_eq_ok.1 hxs
  obtain ⟨rfl, rfl⟩ := pure_eq_ok.1 hxs
  exact ⟨x, s₁, ys, hx, hys, rfl⟩

theorem suite_reaches {ns : List Node} {w : List TokenKind}
    (h : Reaches (List.map Node.bare) (manyUntil endsBlock stmt bound) unit a ns w b
      (endsBlock · = true)) :
    Reaches Node.bare (suite bound stmt) unit a (.block {} ns) (.newline :: .indent :: w ++ [.dedent]) b
      fun _ => True := by
  intro s rest hu hn hs _
  rw [List.append_assoc, List.cons_append, List.cons_append] at hs
  obtain ⟨hnew, hin⟩ := took_one hs (by simp)
  obtain ⟨hopen, hbody⟩ := took_one hin (by simp)
  have ht := hnew.trans hopen
  obtain ⟨ms, s₁, hm, hp, hnames, rfl⟩ := h s.advance.advance _ (ht.unit.trans hu)
    (by rw [ht.names, hn]) hbody rfl
  have hout := hp.rest hbody
  obtain ⟨hclose, -⟩ := took_one (k := .dedent) hout (by simp)
  refine ⟨.block (s.advance.next.span.merge s₁.advance.last) ms, s₁.advance, ?_,
    ht.passed.trans (hp.trans hclose.passed), by rw [hclose.names, hnames], by rw [Node.bare]⟩
  unfold suite
  rw [bind_of_ok (expect_of_next (Reading.next_kind_of_cons hs)), bind_of_ok (peek_run _),
    bind_of_ok (expect_of_next (Reading.next_kind_of_cons hin)), bind_of_ok hm,
    bind_of_ok (expect_of_next (Reading.next_kind_of_cons (k := .dedent) hout))]
  rfl

/-- The header of a conditional and its first block. -/
theorem conditional_head {c : Node} {yes : List Node} {u v : List TokenKind}
    (cond : Spells unit a.declared (.expr .disjunction c) u) (hb : u.length ≤ bound)
    (body : Reaches Node.bare (suite bound stmt) unit a (.block {} yes) v b fun _ => True)
    {s : Reading} {rest : List TokenKind} (hu : s.unit = unit) (hn : s.names = a)
    (hs : s.kinds = (.keyword .kIf :: u ++ .char ':' :: v) ++ rest) :
    ∃ x s₁ y s', s.next.kind = .keyword .kIf ∧ test bound s.advance = .ok (x, s₁) ∧
      s₁.next.kind = .char ':' ∧ suite bound stmt s₁.advance = .ok (y, s') ∧
      s.Passed (.keyword .kIf :: u ++ .char ':' :: v) s' ∧ s'.names = b ∧
      x.bare = c ∧ y.bare = .block {} yes := by
  rw [List.append_assoc, List.cons_append, List.cons_append] at hs
  obtain ⟨hif, hin⟩ := took_one hs (by simp)
  obtain ⟨x, s₁, hx, ht, hxf⟩ := test_reads cond hb s.advance _ (hif.unit.trans hu)
    (by rw [hif.names, hn]) hin (stops_of_mem _ (by simp))
  have hcolon := ht.rest hin
  obtain ⟨hone, hblock⟩ := took_one hcolon (by simp)
  have hline := hif.trans (ht.trans hone)
  obtain ⟨y, s', hy, hp, hnames, hyf⟩ := body s₁.advance rest (hline.unit.trans hu)
    (by rw [hline.names, hn]) hblock trivial
  refine ⟨x, s₁, y, s', Reading.next_kind_of_cons hs, hx, Reading.next_kind_of_cons hcolon, hy, ?_,
    hnames, hxf, hyf⟩
  simpa using hline.passed.trans hp

theorem ifThen_reaches {c : Node} {yes : List Node} {u v : List TokenKind}
    (cond : Spells unit a.declared (.expr .disjunction c) u) (hb : u.length ≤ bound)
    (body : Reaches Node.bare (suite bound stmt) unit a (.block {} yes) v b fun _ => True) :
    Reaches Node.bare (conditional bound stmt) unit a (.ifElse {} c (.block {} yes) none)
      (.keyword .kIf :: u ++ .char ':' :: v) b (· ≠ .keyword .kElse) := by
  intro s rest hu hn hs hk
  obtain ⟨x, s₁, y, s', hif, hx, hcolon, hy, hp, hnames, rfl, hyf⟩ :=
    conditional_head cond hb body hu hn hs
  have hne : s'.next.kind ≠ .keyword .kElse := by
    rw [headD_next (hp.rest hs)]
    exact hk
  refine ⟨.ifElse (s.next.span.merge s'.last) x y none, s', ?_, hp, hnames, by rw [Node.bare, hyf]⟩
  unfold conditional
  rw [bind_of_ok (peek_run s), bind_of_ok (expect_of_next hif), bind_of_ok hx,
    bind_of_ok (expect_of_next hcolon), bind_of_ok hy, bind_of_ok (accept_of_ne hne),
    if_neg (by simp)]
  rfl

theorem ifElse_reaches {c : Node} {yes no : List Node} {u v w : List TokenKind}
    (cond : Spells unit a.declared (.expr .disjunction c) u) (hb : u.length ≤ bound)
    (body : Reaches Node.bare (suite bound stmt) unit a (.block {} yes) v b fun _ => True)
    (other : Reaches Node.bare (suite bound stmt) unit b (.block {} no) w d fun _ => True) :
    Reaches Node.bare (conditional bound stmt) unit a
      (.ifElse {} c (.block {} yes) (some (.block {} no)))
      (.keyword .kIf :: u ++ .char ':' :: v ++ .keyword .kElse :: .char ':' :: w) d
      fun _ => True := by
  intro s rest hu hn hs _
  rw [List.append_assoc] at hs
  obtain ⟨x, s₁, y, s₂, hif, hx, hcolon, hy, hp, hnames, rfl, hyf⟩ :=
    conditional_head cond hb body hu hn hs
  have helse := hp.rest hs
  obtain ⟨hone, hin⟩ := took_one (k := .keyword .kElse) helse (by simp)
  obtain ⟨htwo, hblock⟩ := took_one (k := .char ':') hin (by simp)
  have hmid := hone.trans htwo
  obtain ⟨z, s', hz, hp', hnames', hzf⟩ := other s₂.advance.advance rest
    ((hmid.unit.trans hp.unit).trans hu) (by rw [hmid.names, hnames]) hblock trivial
  refine ⟨.ifElse (s.next.span.merge s'.last) x y (some z), s', ?_,
    hp.trans (hmid.passed.trans hp'), hnames', by rw [Node.bare, hyf, hzf]⟩
  unfold conditional
  rw [bind_of_ok (peek_run s), bind_of_ok (expect_of_next hif), bind_of_ok hx,
    bind_of_ok (expect_of_next hcolon), bind_of_ok hy,
    bind_of_ok (accept_of_next (Reading.next_kind_of_cons (k := .keyword .kElse) helse)),
    if_pos rfl, bind_of_ok (expect_of_next (Reading.next_kind_of_cons (k := .char ':') hin)),
    bind_of_ok hz]
  rfl

/-! ### Classes -/

theorem parameters_read (xs : List String) (hb : xs.length ≤ bound + 1) :
    Reads id (parenthesized expectName bound) unit known xs (parens (commas (xs.map fun x => [.name x])))
      fun _ => True := by
  have hname : ∀ p ∈ xs.map fun x => ([TokenKind.name x], x),
      Reads id expectName unit known p.2 p.1 fun _ => True := by
    intro p hp
    obtain ⟨x, -, rfl⟩ := List.mem_map.1 hp
    intro s rest hu hn hs _
    exact ⟨x, s.advance, expectName_of_next (Reading.next_kind_of_cons (w := rest) hs),
      (took_one (w := rest) hs (by simp)).1, rfl⟩
  have hfirst : ∀ p ∈ xs.map fun x => ([TokenKind.name x], x),
      ∃ k v, p.1 = k :: v ∧ k ≠ .char ')' := by
    intro p hp
    obtain ⟨x, -, rfl⟩ := List.mem_map.1 hp
    exact ⟨_, _, rfl, by simp⟩
  have := parenthesized_reads trivial trivial hname hfirst (m := bound) (by simpa using hb)
  simpa [Function.comp_def] using this

theorem withoutSelf_of_parameters {written params : List String} (h : Parameters written params) :
    withoutSelf written = params := by
  cases h with
  | withSelf params =>
    show (if selfName = selfName then params else selfName :: params) = params
    rw [if_pos rfl]
  | withoutSelf h =>
    cases written with
    | nil => rfl
    | cons x xs =>
      show (if x = selfName then xs else x :: xs) = x :: xs
      rw [if_neg (by simpa using h)]

theorem method_reaches {m : String} {written params : List String} {body : List Node}
    {w : List TokenKind} (hp : Parameters written params) (hb : written.length ≤ bound + 1)
    (h : Reaches Node.bare (suite bound stmt) unit a (.block {} body) w b fun _ => True) :
    Reaches MethodOf.bare (method bound stmt) unit a ⟨m, params, .methodBody {} (.block {} body)⟩
      (.keyword .kDef :: .name m :: parens (commas (written.map fun x => [.name x])) ++ .char ':' :: w)
      b fun _ => True := by
  intro s rest hu hn hs _
  rw [List.append_assoc, List.cons_append, List.cons_append, List.cons_append] at hs
  obtain ⟨hdef, hin⟩ := took_one hs (by simp)
  obtain ⟨hname, hparams⟩ := took_one hin (by simp)
  have ht := hdef.trans hname
  obtain ⟨ps, s₁, hps, htp, hpsf⟩ := parameters_read written hb s.advance.advance _
    (ht.unit.trans hu) (by rw [ht.names, hn]) hparams trivial
  obtain rfl : ps = written := hpsf
  have hcolon := htp.rest hparams
  obtain ⟨hone, hblock⟩ := took_one hcolon (by simp)
  have hline := ht.trans (htp.trans hone)
  obtain ⟨y, s', hy, hpass, hnames, hyf⟩ := h s₁.advance rest (hline.unit.trans hu)
    (by rw [hline.names, hn]) hblock trivial
  refine ⟨⟨m, params, .methodBody (s.next.span.merge s'.last) y⟩, s', ?_, ?_, hnames,
    by rw [MethodOf.bare, Node.bare, hyf]⟩
  · unfold method
    rw [bind_of_ok (peek_run s), bind_of_ok (expect_of_next (Reading.next_kind_of_cons hs)),
      bind_of_ok (expectName_of_next (Reading.next_kind_of_cons hin)), bind_of_ok hps,
      bind_of_ok (expect_of_next (Reading.next_kind_of_cons hcolon)), bind_of_ok hy,
      bind_of_ok (spanFrom_run _ s'), withoutSelf_of_parameters hp]
    rfl
  · simpa using hline.passed.trans hpass

theorem parentClass_reads {parent : Option String} {s : Reading} {rest : List TokenKind}
    (known : ∀ p ∈ parent, p ∈ s.names.finished)
    (hs : s.kinds = (parent.map fun p => parens [.name p]).getD [] ++ .char ':' :: rest) :
    ∃ s', parentClass s = .ok (parent.map (ClassId.mk s.unit), s') ∧
      s.Took ((parent.map fun p => parens [.name p]).getD []) s' := by
  unfold parentClass
  cases parent with
  | none =>
    have hne := Reading.next_kind_ne_of_cons (k := .char '(') (l := .char ':') hs (by decide)
    refine ⟨s, ?_, .refl s⟩
    rw [bind_of_ok (accept_of_ne hne), if_neg (by simp)]
    rfl
  | some p =>
    obtain ⟨hopen, hin⟩ := took_one (k := .char '(') hs (by simp)
    obtain ⟨hname, hrest⟩ := took_one (k := .name p) hin (by simp)
    obtain ⟨hclose, -⟩ := took_one (k := .char ')') hrest (by simp)
    have ht := hopen.trans hname
    have hf : s.advance.advance.finishes p = true := by
      have := known p rfl
      rw [← ht.names] at this
      exact this
    have hall := ht.trans hclose
    have hunit : s.advance.advance.advance.unit = s.unit := hall.unit
    refine ⟨_, ?_, hall⟩
    rw [bind_of_ok (accept_of_next (Reading.next_kind_of_cons (k := .char '(') hs)), if_pos rfl,
      bind_of_ok (expectName_of_next (Reading.next_kind_of_cons hin))]
    show (if s.advance.advance.finishes p then _ else _ : Parser (Option ClassId)) _ = _
    rw [if_pos hf, bind_of_ok (expect_of_next (Reading.next_kind_of_cons (k := .char ')') hrest)),
      Option.map_some, ← hunit]
    rfl

theorem classBody_reaches {c : String} {parent : Option String} {m : Method} {ms : List Method}
    {w : List TokenKind} (known : ∀ p ∈ parent, p ∈ a.finished)
    (body : Reaches (List.map MethodOf.bare) (manyUntil endsBlock (method bound stmt) (bound + 1)) unit
      { a with declared := insert c a.declared } (m :: ms) w b (endsBlock · = true))
    (begins : ∃ k v, w = k :: v ∧ endsBlock k = false) (hmem : c ∈ b.declared) (start : Span) :
    Reaches Node.bare (classBody bound stmt start c) unit a
      (.classDef {} ⟨⟨unit, c⟩, parent.map (ClassId.mk unit), m :: ms⟩)
      ((parent.map fun p => parens [.name p]).getD [] ++
        .char ':' :: .newline :: .indent :: w ++ [.dedent])
      { b with finished := insert c b.finished } fun _ => True := by
  intro s rest hu hn hs _
  rw [List.append_assoc, List.append_assoc, List.cons_append, List.cons_append,
    List.cons_append] at hs
  obtain ⟨s₁, hparent, ht⟩ := parentClass_reads (by rw [hn]; exact known) hs
  have hcolon := ht.rest hs
  obtain ⟨hone, hnew⟩ := took_one hcolon (by simp)
  obtain ⟨htwo, hin⟩ := took_one hnew (by simp)
  obtain ⟨hthree, hmethods⟩ := took_one hin (by simp)
  have hline := ht.trans (hone.trans (htwo.trans hthree))
  have hunit : (s₁.advance.advance.advance.openClass c).unit = unit := hline.unit.trans hu
  obtain ⟨xs, s₂, hm, hp, hnames, hxs⟩ := body (s₁.advance.advance.advance.openClass c) _ hunit
    (by rw [Reading.names_openClass, hline.names, hn]) hmethods rfl
  obtain ⟨k, v, rfl, hk⟩ := begins
  have hgo : endsBlock (s₁.advance.advance.advance.openClass c).next.kind = false := by
    have : (s₁.advance.advance.advance.openClass c).kinds = k :: (v ++ ([.dedent] ++ rest)) := hmethods
    rw [Reading.next_kind_of_cons this, hk]
  obtain ⟨x, s₃, ys, hx, hys, rfl⟩ := manyUntil_uncons hgo hm
  have hout := hp.rest hmethods
  obtain ⟨hclose, -⟩ := took_one (k := .dedent) hout (by simp)
  have hpass := hline.passed.trans (Reading.Passed.trans ⟨hp.text, hp.unit⟩ hclose.passed)
  have hunit' : s₂.advance.unit = unit := hpass.unit.trans hu
  refine ⟨.classDef (start.merge s₂.advance.last) ⟨⟨unit, c⟩, parent.map (ClassId.mk unit), x :: ys⟩,
    s₂.advance.closeClass c, ?_, ⟨?_, hpass.unit⟩, ?_, ?_⟩
  · unfold classBody
    rw [bind_of_ok hparent, bind_of_ok (expect_of_next (Reading.next_kind_of_cons hcolon)),
      bind_of_ok (expect_of_next (Reading.next_kind_of_cons hnew)),
      bind_of_ok (expect_of_next (Reading.next_kind_of_cons hin)), bind_of_ok (modify_run _ _),
      bind_of_ok hx, bind_of_ok hys,
      bind_of_ok (expect_of_next (Reading.next_kind_of_cons (k := .dedent) hout)),
      bind_of_ok (modify_run _ _)]
    show Except.ok (Node.classDef (start.merge s₂.advance.last)
      ⟨⟨s₂.advance.unit, c⟩, parent.map (ClassId.mk s.unit), x :: ys⟩, s₂.advance.closeClass c) = _
    rw [hunit', hu]
  · show s.kinds = _ ++ s₂.advance.kinds
    simpa using hpass.text
  · have hnames' : s₂.advance.names = b := hclose.names.trans hnames
    rw [Reading.names_closeClass (by rw [hnames']; exact hmem), hnames']
  · rw [Node.bare_classDef, hxs]

theorem classDefinition_reaches {c : String} {n : Node} {w : List TokenKind}
    (fresh : c ∉ a.declared)
    (h : ∀ start, Reaches Node.bare (classBody bound stmt start c) unit a n w b fun _ => True) :
    Reaches Node.bare (classDefinition bound stmt) unit a n (.keyword .kClass :: .name c :: w) b
      fun _ => True := by
  intro s rest hu hn hs _
  rw [List.cons_append, List.cons_append] at hs
  obtain ⟨hclass, hin⟩ := took_one hs (by simp)
  obtain ⟨hname, hbody⟩ := took_one hin (by simp)
  have ht := hclass.trans hname
  obtain ⟨x, s', hx, hp, hnames, hf⟩ := h s.next.span s.advance.advance rest (ht.unit.trans hu)
    (by rw [ht.names, hn]) hbody trivial
  have hfresh : ¬ s.advance.advance.declares c = true := by
    rw [← hn, ← ht.names] at fresh
    exact fresh
  refine ⟨x, s', ?_, ht.passed.trans hp, hnames, hf⟩
  unfold classDefinition
  rw [bind_of_ok (peek_run s), bind_of_ok (expect_of_next (Reading.next_kind_of_cons hs)),
    bind_of_ok (expectName_of_next (Reading.next_kind_of_cons hin))]
  show (if s.advance.advance.declares c then _ else _ : Parser Node) _ = _
  rw [if_neg hfresh]
  exact hx

/-! ### All statements -/

/-- A text is read as what it stands for wherever the bound allows for it. -/
def Reached (unit : Nat) (a : ClassNames) : Clause → List TokenKind → ClassNames → Prop
  | .statement n, w, b =>
    ∀ k, w.length ≤ k → Reaches Node.bare (statement k) unit a n w b (· ≠ .keyword .kElse)
  | .statements ns, w, b =>
    ∀ k m stop, w.length ≤ k → w.length ≤ m → (∀ t, stop t = true → t = .dedent ∨ t = .eof) →
      Reaches (List.map Node.bare) (manyUntil stop (statement k) m) unit a ns w b (stop · = true)
  | .suite ns, w, b =>
    ∀ k, w.length ≤ k + 1 →
      Reaches Node.bare (suite (k + 1) (statement k)) unit a (.block {} ns) w b fun _ => True
  | .method m, w, b =>
    ∀ k, w.length ≤ k + 1 →
      Reaches MethodOf.bare (method (k + 1) (statement k)) unit a m w b fun _ => True
  | .methods ms, w, b =>
    ∀ k m, w.length ≤ k + 1 → w.length ≤ m →
      Reaches (List.map MethodOf.bare) (manyUntil endsBlock (method (k + 1) (statement k)) m) unit a
        ms w b (endsBlock · = true)

/-- A line is read as a statement. -/
theorem reached_line {n : Node} {w : List TokenKind} {l : TokenKind} {v : List TokenKind}
    (hw : w ++ [.newline] = l :: v) (hl : l ∉ [.keyword .kClass, .keyword .kIf, .keyword .kDef])
    (h : ∀ bound, w.length ≤ bound → ReadsLine (simple bound) unit a.declared n w) :
    Reached unit a (.statement n) (w ++ [.newline]) a := by
  intro k hk
  rw [List.length_append, List.length_singleton] at hk
  obtain ⟨k, rfl⟩ : ∃ j, k = j + 1 := ⟨k - 1, by omega⟩
  exact line_reaches hw hl (h _ (by omega)) _

theorem statementOver_of_if {s : Reading} {w : List TokenKind} (hs : s.kinds = .keyword .kIf :: w) :
    statementOver bound stmt s = conditional bound stmt s := by
  unfold statementOver
  rw [bind_of_ok (peek_run s), Reading.next_kind_of_cons hs]

theorem statementOver_of_class {s : Reading} {w : List TokenKind}
    (hs : s.kinds = .keyword .kClass :: w) :
    statementOver bound stmt s = classDefinition bound stmt s := by
  unfold statementOver
  rw [bind_of_ok (peek_run s), Reading.next_kind_of_cons hs]

/-- Every statement begins with a token that neither ends a block nor goes on with a conditional. -/
theorem Writes.begins {n : Node} {w : List TokenKind} (h : Writes unit a (.statement n) w b) :
    ∃ k v, w = k :: v ∧ k ∉ [.dedent, .eof, .keyword .kElse] := by
  cases h with
  | expr value =>
    obtain ⟨k, v, rfl, hk⟩ := value.begins
    have hsub : [.dedent, .eof, .keyword .kElse] ⊆ reserved := by decide
    exact ⟨k, _, rfl, fun hm => hk.not_mem (hsub hm)⟩
  | assign value => exact ⟨_, _, rfl, by simp⟩
  | @setField _ path f n w h value =>
    obtain ⟨x, xs, rfl⟩ := List.exists_cons_of_ne_nil h
    rw [List.cons_append, pathText_cons]
    exact ⟨_, _, rfl, by simp⟩
  | _ => exact ⟨_, _, rfl, by simp⟩

theorem Writes.statements_begins {ns : List Node} {w : List TokenKind}
    (h : Writes unit a (.statements ns) w b) :
    w = [] ∨ ∃ k v, w = k :: v ∧ k ∉ [.dedent, .eof, .keyword .kElse] := by
  cases h with
  | noStatements => exact .inl rfl
  | statements first rest =>
    obtain ⟨k, v, rfl, hk⟩ := Writes.begins first
    exact .inr ⟨k, _, rfl, hk⟩

theorem Writes.method_begins {m : Method} {w : List TokenKind}
    (h : Writes unit a (.method m) w b) : ∃ k v, w = k :: v ∧ endsBlock k = false := by
  cases h with
  | method h suite => exact ⟨_, _, rfl, rfl⟩

theorem Writes.methods_begins {ms : List Method} {w : List TokenKind}
    (h : Writes unit a (.methods ms) w b) (hne : ms ≠ []) :
    ∃ k v, w = k :: v ∧ endsBlock k = false := by
  cases h with
  | noMethods => exact absurd rfl hne
  | methods first rest =>
    obtain ⟨k, v, rfl, hk⟩ := Writes.method_begins first
    exact ⟨k, _, rfl, hk⟩

theorem reached {c : Clause} {w : List TokenKind} (h : Writes unit a c w b) :
    Reached unit a c w b := by
  induction h with
  | ret value =>
    refine reached_line rfl (by simp) fun bound hb => ?_
    exact simple_reads_behind (by simp) (fun s v => simple_of_return)
      (returned_reads value (Nat.le_of_succ_le hb))
  | retNone =>
    refine reached_line (w := [.keyword .kReturn]) rfl (by simp) fun bound _ => ?_
    exact simple_reads_behind (by simp) (fun s v => simple_of_return) returned_none_reads
  | printCall args =>
    refine reached_line rfl (by simp) fun bound hb => ?_
    exact simple_reads_behind (by simp) (fun s v => simple_of_print)
      (printed_args_reads args (Nat.le_of_succ_le hb))
  | print items each =>
    refine reached_line rfl (by simp) fun bound hb => ?_
    exact simple_reads_behind (by simp) (fun s v => simple_of_print)
      (printed_reads each (Nat.le_of_succ_le hb))
  | @assign a x n w value =>
    refine reached_line rfl (by simp) fun bound hb => ?_
    exact simple_reads_assignment (List.cons_ne_nil x []) (assign_reads value hb)
  | @setField a path f n w h value =>
    obtain ⟨x, xs, hx⟩ := List.exists_cons_of_ne_nil (List.append_ne_nil_of_left_ne_nil h [f])
    refine reached_line (by rw [hx, pathText_cons]; rfl) (by simp) fun bound hb => ?_
    exact simple_reads_assignment (by simp) (setField_reads h value hb)
  | expr value =>
    obtain ⟨k, v, hw, hk⟩ := value.begins
    have hsub : [.keyword .kClass, .keyword .kIf, .keyword .kDef] ⊆ reserved := by decide
    exact reached_line (by rw [hw]; rfl) (fun hm => hk.not_mem (hsub hm))
      fun bound hb => simple_reads_test value hb
  | @ifThen a b c yes u v cond body ih =>
    intro k hk s rest hu hn hs hne
    rw [List.length_append, List.length_cons, List.length_cons] at hk
    obtain ⟨k, rfl⟩ : ∃ j, k = j + 1 := ⟨k - 1, by omega⟩
    show ∃ y s', statementOver (k + 1) (statement k) s = _ ∧ _
    rw [statementOver_of_if (by rw [hs]; rfl)]
    exact ifThen_reaches cond (by omega) (ih k (by omega)) s rest hu hn hs hne
  | @ifElse a b d c yes no u v w cond body other ih ih' =>
    intro k hk s rest hu hn hs _
    simp only [List.length_append, List.length_cons] at hk
    obtain ⟨k, rfl⟩ : ∃ j, k = j + 1 := ⟨k - 1, by omega⟩
    show ∃ y s', statementOver (k + 1) (statement k) s = _ ∧ _
    rw [statementOver_of_if (by rw [hs]; rfl)]
    exact ifElse_reaches cond (by omega) (ih k (by omega)) (ih' k (by omega)) s rest hu hn hs trivial
  | @classDef a b c parent ms w fresh known body nonempty ih =>
    intro k hk s rest hu hn hs _
    simp only [List.length_append, List.length_cons] at hk
    obtain ⟨k, rfl⟩ : ∃ j, k = j + 1 := ⟨k - 1, by omega⟩
    show ∃ y s', statementOver (k + 1) (statement k) s = _ ∧ _
    rw [statementOver_of_class (by rw [hs]; rfl)]
    obtain ⟨m, ms, rfl⟩ := List.exists_cons_of_ne_nil nonempty
    have hmem := body.declared_subset (Set.mem_insert c _)
    have hbody := fun start => classBody_reaches known (ih k (k + 1 + 1) (by omega) (by omega))
      (Writes.methods_begins body nonempty) hmem start
    refine classDefinition_reaches fresh hbody s rest hu hn ?_ trivial
    simpa using hs
  | @method a b m written params body w h suite ih =>
    intro k hk
    have hnames : ∀ v ∈ written.map fun x => [TokenKind.name x], v ≠ [] := by simp
    have hlen := length_le_commas hnames
    simp only [List.length_append, List.length_cons, parens_length, List.length_map] at hk hlen
    exact method_reaches h (by omega) (ih k (by omega))
  | @suite a b ns w body ih =>
    intro k hk
    simp only [List.length_append, List.length_cons] at hk
    refine suite_reaches (ih k (k + 1) endsBlock (by omega) (by omega) fun t ht => ?_)
    simpa [endsBlock] using ht
  | noStatements => exact fun k m stop _ _ _ => manyUntil_nil_reaches
  | @statements a b d n ns u v first rest ih ih' =>
    intro k m stop hk hm hstop
    rw [List.length_append] at hk hm
    have hpos := first.length_pos
    obtain ⟨m, rfl⟩ : ∃ j, m = j + 1 := ⟨m - 1, by omega⟩
    refine manyUntil_cons_reaches ?_ (ih k (by omega)) (fun after hend => ?_)
      (ih' k m stop (by omega) (by omega) hstop)
    · obtain ⟨l, w, rfl, hl⟩ := Writes.begins first
      refine ⟨l, w, rfl, Bool.eq_false_iff.2 fun h => ?_⟩
      obtain rfl | rfl := hstop l h
      · exact hl (by simp)
      · exact hl (by simp)
    · obtain rfl | ⟨l, w, rfl, hl⟩ := Writes.statements_begins rest
      · rw [List.nil_append]
        obtain h | h := hstop _ hend
        · rw [h]
          decide
        · rw [h]
          decide
      · rintro rfl
        exact hl (by simp)
  | noMethods => exact fun k m _ _ => manyUntil_nil_reaches
  | @methods a b d x xs u v first rest ih ih' =>
    intro k m hk hm
    rw [List.length_append] at hk hm
    have hpos := first.method_pos
    obtain ⟨m, rfl⟩ : ∃ j, m = j + 1 := ⟨m - 1, by omega⟩
    exact manyUntil_cons_reaches (Writes.method_begins first) (ih k (by omega))
      (fun _ _ => trivial) (ih' k m (by omega) (by omega))

/-- A program is read as what it is, from its first token to its last. -/
theorem program_complete {ns : List Node} {s : Reading}
    (h : Writes s.unit s.names (.statements ns) s.kinds b) :
    ∃ n s', program s.rest.length s = .ok (n, s') ∧ n.bare = .block {} ns ∧ s'.names = b := by
  have hlen : s.kinds.length = s.rest.length := List.length_map _
  obtain ⟨ms, s', hm, hp, hnames, rfl⟩ := reached h s.rest.length s.rest.length (· = .eof)
    (by omega) (by omega) (fun t ht => .inr (of_decide_eq_true ht)) s [] rfl rfl
    (List.append_nil _).symm rfl
  refine ⟨.block (s.next.span.merge s'.next.span) ms, s', ?_, by rw [Node.bare], hnames⟩
  unfold program
  rw [bind_of_ok (peek_run s), bind_of_ok hm]
  rfl

end Parser

end ClassScript

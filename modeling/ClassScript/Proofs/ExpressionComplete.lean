import ClassScript.Proofs.ExpressionSound

/-!
# What is an expression is read as one

A reader of expressions takes every text that the grammar has for a tree and gives this tree, if the
text behind cannot be taken for more of it (`Rank.Stops`).  The readers are greedy, so the induction
over the grammar has to know of one text only that it may be taken further: a dotted name, the last
name of which turns into a method when arguments follow.  Main statement: `expression_complete`.
-/

namespace ClassScript

open Grammar

theorem Reading.Took.rest {s s' : Reading} {w rest : List TokenKind} (h : s.Took w s')
    (hs : s.kinds = w ++ rest) : s'.kinds = rest :=
  List.append_cancel_left (h.text.symm.trans hs)

namespace Grammar

/-! ### First tokens -/

/-- The tokens that an expression of a rank may begin with. -/
def Rank.Begins (r : Rank) (k : TokenKind) : Prop :=
  (k = .keyword .kNot ∧ r.tightness ≤ negation.tightness) ∨
    (k = .char '-' ∧ r.tightness ≤ signed.tightness) ∨
    (∃ v, Constant k v) ∨ (∃ x, k = .name x) ∨ k = .char '('

theorem Rank.Begins.looser {r : Rank} {k : TokenKind} (h : r.next.Begins k) : r.Begins k := by
  have hr := r.tightness_le_next
  obtain ⟨rfl, hn⟩ | ⟨rfl, hs⟩ | h := h
  · exact .inl ⟨rfl, hr.trans hn⟩
  · exact .inr (.inl ⟨rfl, hr.trans hs⟩)
  · exact .inr (.inr h)

theorem Rank.Begins.of_char {r : Rank} {c : Char} (h : r.Begins (.char c)) :
    (c = '-' ∧ r.tightness ≤ signed.tightness) ∨ c = '(' := by
  obtain ⟨h, -⟩ | ⟨h, hr⟩ | ⟨v, h⟩ | ⟨x, h⟩ | h := h
  · cases h
  · exact .inl ⟨TokenKind.char.inj h, hr⟩
  · cases h
  · cases h
  · exact .inr (TokenKind.char.inj h)

theorem Rank.Begins.of_not {r : Rank} (h : r.Begins (.keyword .kNot)) :
    r.tightness ≤ negation.tightness := by
  obtain ⟨-, hr⟩ | ⟨h, -⟩ | ⟨v, h⟩ | ⟨x, h⟩ | h := h
  · exact hr
  all_goals cases h

/-- Every expression begins with a token that its rank may begin with. -/
theorem Spells.begins {unit : Nat} {known : Set String} {r : Rank} {n : Node} {w : List TokenKind}
    (h : Spells unit known (.expr r n) w) : ∃ k v, w = k :: v ∧ r.Begins k := by
  generalize hp : Phrase.expr r n = p at h
  induction h generalizing r n with
  | binary more first rank rest ih _ =>
    cases hp
    obtain ⟨k, v, rfl, hk⟩ := ih rfl
    exact ⟨k, _, rfl, hk.looser⟩
  | not arg ih =>
    cases hp
    exact ⟨_, _, rfl, .inl ⟨rfl, le_refl _⟩⟩
  | compare op left right ih _ =>
    cases hp
    obtain ⟨k, v, rfl, hk⟩ := ih rfl
    exact ⟨k, _, rfl, Rank.Begins.looser (r := .comparison) hk⟩
  | minus arg ih =>
    cases hp
    exact ⟨_, _, rfl, .inr (.inl ⟨rfl, le_refl _⟩)⟩
  | call more first rest ih _ =>
    cases hp
    obtain ⟨k, v, rfl, hk⟩ := ih rfl
    exact ⟨k, _, rfl, Rank.Begins.looser (r := .chain) hk⟩
  | literal hc =>
    cases hp
    exact ⟨_, _, rfl, .inr (.inr (.inl ⟨_, hc⟩))⟩
  | paren inner ih =>
    cases hp
    exact ⟨_, _, rfl, .inr (.inr (.inr (.inr rfl)))⟩
  | str free arg ih =>
    cases hp
    exact ⟨_, _, rfl, .inr (.inr (.inr (.inl ⟨_, rfl⟩)))⟩
  | new declared args ih =>
    cases hp
    exact ⟨_, _, rfl, .inr (.inr (.inr (.inl ⟨_, rfl⟩)))⟩
  | @lookup path hne =>
    cases hp
    obtain ⟨x, xs, rfl⟩ := List.exists_cons_of_ne_nil hne
    rw [pathText_cons]
    exact ⟨_, _, rfl, .inr (.inr (.inr (.inl ⟨_, rfl⟩)))⟩
  | @dottedCall path m ns w hne args ih =>
    cases hp
    obtain ⟨x, xs, rfl⟩ := List.exists_cons_of_ne_nil hne
    rw [List.cons_append, pathText_cons]
    exact ⟨_, _, rfl, .inr (.inr (.inr (.inl ⟨_, rfl⟩)))⟩
  | args items each ih => cases hp

theorem Spells.length_pos {unit : Nat} {known : Set String} {r : Rank} {n : Node}
    {w : List TokenKind} (h : Spells unit known (.expr r n) w) : 0 < w.length := by
  obtain ⟨k, v, rfl, -⟩ := h.begins
  exact Nat.succ_pos _

/-- Arguments begin with their parenthesis. -/
theorem Spells.opens {unit : Nat} {known : Set String} {ns : List Node} {w : List TokenKind}
    (h : Spells unit known (.args ns) w) : ∃ v, w = .char '(' :: v := by
  cases h with
  | args items each => exact ⟨_, rfl⟩

/-! ### Tokens behind an expression -/

/-- The tokens that an expression of a rank cannot go on with. -/
structure Rank.Stops (r : Rank) (k : TokenKind) : Prop where
  dot : k ≠ .char '.'
  bracket : k ≠ .char '('
  token : ∀ op : BinOp, r.tightness ≤ op.rank.tightness → k ≠ op.token
  comparator : r.tightness ≤ comparison.tightness → ∀ op, k ≠ comparatorToken op

theorem Rank.Stops.mono {r q : Rank} {k : TokenKind} (h : r.Stops k)
    (hq : r.tightness ≤ q.tightness) : q.Stops k :=
  ⟨h.dot, h.bracket, fun op ho => h.token op (hq.trans ho), fun hc => h.comparator (hq.trans hc)⟩

theorem Rank.Stops.tighter {r : Rank} {k : TokenKind} (h : r.Stops k) : r.next.Stops k :=
  h.mono r.tightness_le_next

theorem Rank.Stops.joinOf {r : Rank} {k : TokenKind} (h : r.Stops k) :
    Parser.joinOf r k = none := by
  cases hj : Parser.joinOf r k with
  | none => rfl
  | some f =>
    obtain ⟨op, rfl, rfl, -⟩ := Parser.joinOf_eq_some hj
    exact absurd rfl (h.token op (le_refl _))

theorem Rank.Stops.comparator? {k : TokenKind} (h : comparison.Stops k) :
    Parser.comparator? k = none := by
  cases hc : Parser.comparator? k with
  | none => rfl
  | some op => exact absurd (Parser.comparator?_eq_some hc).symm (h.comparator (le_refl _) op)

/-- An operator ends its left operand. -/
theorem stops_token (op : BinOp) : op.rank.next.Stops op.token := by
  refine ⟨?_, ?_, ?_, ?_⟩
  · rcases op with ⟨⟨⟩⟩ | ⟨⟨⟩⟩ <;> simp [BinOp.token]
  · rcases op with ⟨⟨⟩⟩ | ⟨⟨⟩⟩ <;> simp [BinOp.token]
  · rintro (⟨⟨⟩⟩ | ⟨⟨⟩⟩) h <;> rcases op with ⟨⟨⟩⟩ | ⟨⟨⟩⟩ <;>
      simp [BinOp.token, BinOp.rank, Rank.next, Rank.tightness] at h ⊢
  · rcases op with ⟨⟨⟩⟩ | ⟨⟨⟩⟩ <;> rintro h ⟨⟩ <;>
      simp [BinOp.token, BinOp.rank, Rank.next, Rank.tightness, comparatorToken] at h ⊢

/-- A relational operator ends its left operand. -/
theorem stops_comparatorToken (op : Comparator) : Rank.sum.Stops (comparatorToken op) := by
  refine ⟨?_, ?_, ?_, fun h => absurd h (by decide)⟩
  · cases op <;> simp [comparatorToken]
  · cases op <;> simp [comparatorToken]
  · rintro (⟨⟨⟩⟩ | ⟨⟨⟩⟩) h <;> cases op <;> simp [BinOp.token, comparatorToken]

/-- What may stand behind an expression in another text ends it. -/
theorem stops_of_mem (r : Rank) {k : TokenKind}
    (h : k ∈ [.char ')', .char ',', .char ':', .newline]) : r.Stops k := by
  refine ⟨?_, ?_, fun op _ => ?_, fun _ op => ?_⟩ <;> rintro rfl
  · exact absurd h (by decide)
  · exact absurd h (by decide)
  · exact absurd h (by rcases op with ⟨⟨⟩⟩ | ⟨⟨⟩⟩ <;> decide)
  · exact absurd h (by cases op <;> decide)

end Grammar

namespace Parser

variable {α β : Type} {unit : Nat} {known : Set String}

/-- In a program `unit` with the classes `known`, `p` takes the text `w` and gives `b`, told by `f`,
if the token behind the text is one of those in `ok`. -/
def Reads (f : α → β) (p : Parser α) (unit : Nat) (known : Set String) (b : β) (w : List TokenKind)
    (ok : TokenKind → Prop) : Prop :=
  ∀ s rest, s.unit = unit → s.names.declared = known → s.kinds = w ++ rest →
    ok (rest.headD .eof) → ∃ a s', p s = .ok (a, s') ∧ s.Took w s' ∧ f a = b

theorem headD_next {s : Reading} {w : List TokenKind} (h : s.kinds = w) :
    s.next.kind = w.headD .eof := by
  subst h
  rw [Reading.next, Reading.ahead_kind]
  cases s.kinds <;> rfl

theorem took_one {s : Reading} {k : TokenKind} {w : List TokenKind} (h : s.kinds = k :: w)
    (hk : k ≠ .eof) : s.Took [k] s.advance ∧ s.advance.kinds = w := by
  have ht := Reading.Took.advance (Reading.next_kind_of_cons h) hk
  exact ⟨ht, ht.rest h⟩

/-! ### Lists -/

theorem parens_append (w v : List TokenKind) :
    parens w ++ v = .char '(' :: (w ++ .char ')' :: v) := by
  simp [parens]

theorem parens_length (w : List TokenKind) : (parens w).length = w.length + 2 := by
  simp [parens]

theorem length_le_commas {ws : List (List TokenKind)} (h : ∀ w ∈ ws, w ≠ []) :
    ws.length ≤ (commas ws).length := by
  induction ws with
  | nil => exact Nat.zero_le _
  | cons w ws ih =>
    have hw := List.length_pos_iff.2 (h w (.head _))
    have hws := ih fun v hv => h v (.tail _ hv)
    by_cases hne : ws = []
    · subst hne
      rw [commas_singleton]
      exact hw
    · rw [commas_cons hne, List.length_append, List.length_cons, List.length_cons]
      omega

theorem commaList_single_reads {f : α → β} {item : Parser α} {ok : TokenKind → Prop}
    {p : List TokenKind × β} (h : Reads f item unit known p.2 p.1 ok) (m : Nat) :
    Reads (List.map f) (commaList item m) unit known [p.2] p.1 (fun k => ok k ∧ k ≠ .char ',') := by
  intro s rest hu hn hs hk
  obtain ⟨a, s', ha, ht, hf⟩ := h s rest hu hn hs hk.1
  refine ⟨[a], s', ?_, ht, by rw [List.map_singleton, hf]⟩
  cases m with
  | zero =>
    unfold commaList
    rw [bind_of_ok ha]
    rfl
  | succ m =>
    have hnext : s'.next.kind ≠ .char ',' := by
      rw [headD_next (ht.rest hs)]
      exact hk.2
    unfold commaList
    rw [bind_of_ok ha, bind_of_ok (accept_of_ne hnext)]
    rfl

theorem commaList_reads {f : α → β} {item : Parser α} {ok : TokenKind → Prop} (hc : ok (.char ','))
    {items : List (List TokenKind × β)} (hne : items ≠ [])
    (each : ∀ p ∈ items, Reads f item unit known p.2 p.1 ok) {m : Nat} (hm : items.length ≤ m + 1) :
    Reads (List.map f) (commaList item m) unit known (items.map Prod.snd)
      (commas (items.map Prod.fst)) (fun k => ok k ∧ k ≠ .char ',') := by
  induction items generalizing m with
  | nil => exact absurd rfl hne
  | cons p items ih =>
    obtain ⟨hp, hitems⟩ := List.forall_mem_cons.1 each
    by_cases hi : items = []
    · subst hi
      rw [List.map_singleton, List.map_singleton, commas_singleton]
      exact commaList_single_reads hp m
    · have hpos := List.length_pos_iff.2 hi
      rw [List.length_cons] at hm
      obtain ⟨m, rfl⟩ : ∃ j, m = j + 1 := ⟨m - 1, by omega⟩
      have hle : items.length ≤ m + 1 := by omega
      intro s rest hu hn hs hk
      rw [List.map_cons, commas_cons (by simpa using hi)] at hs ⊢
      rw [List.append_assoc] at hs
      obtain ⟨a, s₁, ha, ht, hf⟩ := hp s _ hu hn hs hc
      have hcomma := ht.rest hs
      obtain ⟨hone, hrest⟩ := took_one hcomma (by simp)
      obtain ⟨as, s₂, has, ht', hfs⟩ := ih hi hitems hle s₁.advance rest
        ((hone.unit.trans ht.unit).trans hu) (by rw [hone.names, ht.names, hn]) hrest hk
      refine ⟨a :: as, s₂, ?_, ht.trans (hone.trans ht'), ?_⟩
      · unfold commaList
        rw [bind_of_ok ha, bind_of_ok (accept_of_next (Reading.next_kind_of_cons hcomma)),
          if_pos rfl, bind_of_ok has]
        rfl
      · rw [List.map_cons, hf, hfs, List.map_cons]

theorem parenthesized_reads {f : α → β} {item : Parser α} {ok : TokenKind → Prop}
    (hc : ok (.char ',')) (hp : ok (.char ')')) {items : List (List TokenKind × β)}
    (each : ∀ p ∈ items, Reads f item unit known p.2 p.1 ok)
    (first : ∀ p ∈ items, ∃ k v, p.1 = k :: v ∧ k ≠ .char ')') {m : Nat}
    (hm : items.length ≤ m + 1) :
    Reads (List.map f) (parenthesized item m) unit known (items.map Prod.snd)
      (parens (commas (items.map Prod.fst))) (fun _ => True) := by
  intro s rest hu hn hs _
  rw [parens_append] at hs
  obtain ⟨hopen, hin⟩ := took_one hs (by simp)
  have ho := expect_of_next (Reading.next_kind_of_cons hs)
  by_cases hi : items = []
  · subst hi
    obtain ⟨hclose, -⟩ := took_one (k := .char ')') hin (by simp)
    have hcl := accept_of_next (Reading.next_kind_of_cons (k := .char ')') hin)
    refine ⟨[], _, ?_, hopen.trans hclose, rfl⟩
    unfold parenthesized
    rw [bind_of_ok ho, bind_of_ok hcl]
    rfl
  · have hne : s.advance.next.kind ≠ .char ')' := by
      obtain ⟨p, items, rfl⟩ := List.exists_cons_of_ne_nil hi
      obtain ⟨k, v, hv, hk⟩ := first p (.head _)
      by_cases hi : items = []
      · subst hi
        rw [List.map_singleton, commas_singleton, hv] at hin
        exact Reading.next_kind_ne_of_cons hin hk
      · rw [List.map_cons, commas_cons (by simpa using hi), hv] at hin
        exact Reading.next_kind_ne_of_cons hin hk
    obtain ⟨as, s₁, has, ht, hf⟩ := commaList_reads hc hi each hm s.advance _
      (hopen.unit.trans hu) (by rw [hopen.names, hn]) hin ⟨hp, by simp⟩
    have hrest := ht.rest hin
    obtain ⟨hclose, -⟩ := took_one (k := .char ')') hrest (by simp)
    have hcl := expect_of_next (Reading.next_kind_of_cons (k := .char ')') hrest)
    refine ⟨as, _, ?_, hopen.trans (ht.trans hclose), hf⟩
    unfold parenthesized
    rw [bind_of_ok ho, bind_of_ok (accept_of_ne hne), if_neg (by simp), bind_of_ok has,
      bind_of_ok hcl]
    rfl

/-! ### Operators between operands -/

theorem length_le_flatMap {γ : Type} (xs : List γ) (f : γ → List TokenKind) (h : ∀ x, f x ≠ []) :
    xs.length ≤ (xs.flatMap f).length := by
  induction xs with
  | nil => exact Nat.zero_le _
  | cons x xs ih =>
    have := List.length_pos_iff.2 (h x)
    rw [List.flatMap_cons, List.length_append, List.length_cons]
    omega

/-- What ends an expression ends its last operand, and an operator ends the others. -/
theorem stops_more {r : Rank} {more : List (BinOp × List TokenKind × Node)} {rest : List TokenKind}
    (rank : ∀ p ∈ more, p.1.rank = r) (h : r.Stops (rest.headD .eof)) :
    r.next.Stops (((more.flatMap fun p => p.1.token :: p.2.1) ++ rest).headD .eof) := by
  cases more with
  | nil => exact h.tighter
  | cons p more =>
    obtain rfl := rank p (.head _)
    exact stops_token p.1

theorem operands_reads {r : Rank} {operand : Parser Node}
    {more : List (BinOp × List TokenKind × Node)} (rank : ∀ p ∈ more, p.1.rank = r)
    (each : ∀ p ∈ more, Reads Node.bare operand unit known p.2.2 p.2.1 r.next.Stops) {m : Nat}
    (hm : more.length ≤ m) (l : Node) :
    Reads Node.bare (operands (joinOf r) operand m l) unit known
      (more.foldl (fun l p => p.1.node {} l p.2.2) l.bare)
      (more.flatMap fun p => p.1.token :: p.2.1) r.Stops := by
  induction more generalizing l m with
  | nil =>
    intro s rest hu hn hs hk
    refine ⟨l, s, ?_, .refl s, rfl⟩
    cases m with
    | zero => rfl
    | succ m =>
      unfold operands
      rw [bind_of_ok (peek_run s), headD_next hs, List.flatMap_nil, List.nil_append, hk.joinOf]
      rfl
  | cons p more ih =>
    obtain ⟨op, w, right⟩ := p
    obtain ⟨m, rfl⟩ : ∃ k, m = k + 1 := ⟨m - 1, by rw [List.length_cons] at hm; omega⟩
    intro s rest hu hn hs hk
    obtain rfl := rank _ (.head _)
    have hmore := fun q hq => rank q (.tail _ hq)
    rw [List.flatMap_cons, List.append_assoc, List.cons_append] at hs
    obtain ⟨hop, hin⟩ := took_one hs (token_ne_eof op)
    obtain ⟨a, s₁, ha, ht, hf⟩ := each _ (.head _) s.advance _ (hop.unit.trans hu)
      (by rw [hop.names, hn]) hin (stops_more hmore hk)
    have ht := hop.trans ht
    obtain ⟨n, s₂, hn', ht', hf'⟩ := ih hmore (fun q hq => each q (.tail _ hq))
      (Nat.le_of_succ_le_succ hm) (joined op.node l a) s₁ rest (ht.unit.trans hu)
      (by rw [ht.names, hn]) (ht.rest (by rw [hs]; rfl)) hk
    refine ⟨n, s₂, ?_, ht.trans ht', ?_⟩
    · unfold operands
      rw [bind_of_ok (peek_run s), Reading.next_kind_of_cons hs, joinOf_token]
      dsimp only
      rw [bind_of_ok (skip_run s), bind_of_ok ha]
      exact hn'
    · rw [hf', bare_joined, hf]
      rfl

theorem leftAssoc_reads {r : Rank} {operand : Parser Node} {n : Node} {w : List TokenKind}
    (first : Reads Node.bare operand unit known n w r.next.Stops)
    {more : List (BinOp × List TokenKind × Node)} (rank : ∀ p ∈ more, p.1.rank = r)
    (each : ∀ p ∈ more, Reads Node.bare operand unit known p.2.2 p.2.1 r.next.Stops) {m : Nat}
    (hm : more.length ≤ m) :
    Reads Node.bare (leftAssoc (joinOf r) operand m) unit known
      (more.foldl (fun l p => p.1.node {} l p.2.2) n)
      (w ++ more.flatMap fun p => p.1.token :: p.2.1) r.Stops := by
  intro s rest hu hn hs hk
  rw [List.append_assoc] at hs
  obtain ⟨l, s₁, hl, ht, rfl⟩ := first s _ hu hn hs (stops_more rank hk)
  obtain ⟨n, s₂, hn', ht', hf⟩ := operands_reads rank each hm l s₁ rest (ht.unit.trans hu)
    (by rw [ht.names, hn]) (ht.rest hs) hk
  refine ⟨n, s₂, ?_, ht.trans ht', hf⟩
  unfold leftAssoc
  rw [bind_of_ok hl]
  exact hn'

/-! ### Names -/

theorem moreNames_reads {xs : List String} {m : Nat} (hm : xs.length ≤ m) {s : Reading}
    {rest : List TokenKind} (hs : s.kinds = (xs.flatMap fun x => [.char '.', .name x]) ++ rest)
    (hk : rest.headD .eof ≠ .char '.') :
    ∃ s', moreNames m s = .ok (xs, s') ∧
      s.Took (xs.flatMap fun x => [.char '.', .name x]) s' := by
  induction xs generalizing m s with
  | nil =>
    refine ⟨s, ?_, .refl s⟩
    cases m with
    | zero => rfl
    | succ m =>
      have hd : s.next.kind ≠ .char '.' := by
        rw [headD_next hs]
        exact hk
      unfold moreNames
      rw [bind_of_ok (nextIs_run _ s), decide_eq_false hd, if_neg (by simp)]
      rfl
  | cons x xs ih =>
    obtain ⟨m, rfl⟩ : ∃ k, m = k + 1 := ⟨m - 1, by rw [List.length_cons] at hm; omega⟩
    obtain ⟨hdot, hin⟩ := took_one (k := .char '.') hs (by simp)
    obtain ⟨hname, hrest⟩ := took_one (k := .name x) hin (by simp)
    obtain ⟨s', hy, ht⟩ := ih (Nat.le_of_succ_le_succ hm) hrest
    refine ⟨s', ?_, hdot.trans (hname.trans ht)⟩
    have hsecond : (s.ahead 1).kind = .name x := by
      rw [Reading.ahead_kind, hs]
      rfl
    unfold moreNames
    rw [bind_of_ok (nextIs_run _ s), decide_eq_true (Reading.next_kind_of_cons hs), if_pos rfl,
      bind_of_ok (peekSecond_run s), hsecond]
    dsimp only
    rw [bind_of_ok (skip_run s), bind_of_ok (skip_run _), bind_of_ok hy]
    rfl

theorem dottedName_reads {path : List String} (hne : path ≠ []) {m : Nat} (hm : path.length ≤ m + 1)
    {s : Reading} {rest : List TokenKind} (hs : s.kinds = pathText path ++ rest)
    (hk : rest.headD .eof ≠ .char '.') :
    ∃ s', dottedName m s = .ok (path, s') ∧ s.Took (pathText path) s' := by
  obtain ⟨x, xs, rfl⟩ := List.exists_cons_of_ne_nil hne
  rw [pathText_cons] at hs ⊢
  obtain ⟨hname, hin⟩ := took_one hs (by simp)
  obtain ⟨s', hm, ht⟩ := moreNames_reads (Nat.le_of_succ_le_succ hm) hin hk
  refine ⟨s', ?_, hname.trans ht⟩
  unfold dottedName
  rw [bind_of_ok (expectName_of_next (Reading.next_kind_of_cons hs)), bind_of_ok hm]
  rfl

theorem length_le_pathText (path : List String) : path.length ≤ (pathText path).length := by
  cases path with
  | nil => exact Nat.zero_le _
  | cons x xs =>
    rw [pathText_cons, List.length_cons, List.length_cons]
    have := length_le_flatMap xs (fun y => [.char '.', .name y]) (by simp)
    omega

theorem pathText_concat {path : List String} (h : path ≠ []) (m : String) :
    pathText (path ++ [m]) = pathText path ++ [.char '.', .name m] := by
  obtain ⟨x, xs, rfl⟩ := List.exists_cons_of_ne_nil h
  rw [List.cons_append, pathText_cons, pathText_cons, List.flatMap_append]
  rfl

section

variable {bound : Nat} {inner : Level → Parser Node}

/-- A dotted name is entered as such, unless it is a single name with a parenthesis behind it. -/
theorem primary_of_pathText {path : List String} (hne : path ≠ []) {s : Reading}
    {rest : List TokenKind} (hs : s.kinds = pathText path ++ rest)
    (hk : path.length = 1 → rest.headD .eof ≠ .char '(') :
    primary bound inner s = dottedValue bound inner s := by
  obtain ⟨x, xs, rfl⟩ := List.exists_cons_of_ne_nil hne
  rw [pathText_cons, List.cons_append] at hs
  have hsecond : (s.ahead 1).kind ≠ .char '(' := by
    rw [Reading.ahead_kind, hs]
    cases xs with
    | nil =>
      have := hk rfl
      cases rest <;> exact this
    | cons y ys =>
      show TokenKind.char '.' ≠ .char '('
      decide
  unfold primary
  rw [bind_of_ok (peek_run s), Reading.next_kind_of_cons hs]
  dsimp only
  rw [bind_of_ok (peekSecond_run s), if_neg hsecond]

theorem lookup_reads {path : List String} (hne : path ≠ []) (hb : (pathText path).length ≤ bound) :
    Reads Node.bare (primary bound inner) unit known (.lookup {} path) (pathText path)
      Rank.chain.Stops := by
  intro s rest hu hn hs hk
  have hlen := length_le_pathText path
  obtain ⟨s', hp, ht⟩ := dottedName_reads hne (m := bound) (by omega) hs hk.dot
  have hnext : s'.next.kind ≠ .char '(' := by
    rw [headD_next (ht.rest hs)]
    exact hk.bracket
  refine ⟨.lookup (s.next.span.merge s'.last) path, s', ?_, ht, by rw [Node.bare]⟩
  rw [primary_of_pathText hne hs fun _ => hk.bracket]
  unfold dottedValue
  rw [bind_of_ok (peek_run s), bind_of_ok hp, bind_of_ok (nextIs_run _ s'), decide_eq_false hnext,
    Bool.and_false, if_neg (by simp)]
  rfl

theorem dottedCall_reads {path : List String} {m : String} {ns : List Node} {w : List TokenKind}
    (hne : path ≠ []) (hb : (pathText (path ++ [m]) ++ w).length ≤ bound) (hw : ∃ v, w = .char '(' :: v)
    (args : Reads (List.map Node.bare) (arguments bound inner) unit known ns w fun _ => True) :
    Reads Node.bare (primary bound inner) unit known (.call {} (.lookup {} path) m ns)
      (pathText (path ++ [m]) ++ w) fun _ => True := by
  intro s rest hu hn hs _
  obtain ⟨v, rfl⟩ := hw
  have hlen := length_le_pathText (path ++ [m])
  have hpos := List.length_pos_iff.2 hne
  rw [List.length_append] at hb
  rw [List.append_assoc] at hs
  have hne' : path ++ [m] ≠ [] := by simp
  obtain ⟨s₁, hp, ht⟩ := dottedName_reads hne' (m := bound) (by omega) hs
    (by show TokenKind.char '(' ≠ .char '.'; decide)
  have hin := ht.rest hs
  obtain ⟨as, s₂, ha, ht', hf⟩ := args s₁ rest (ht.unit.trans hu) (by rw [ht.names, hn]) hin trivial
  refine ⟨.call (s.next.span.merge s₂.last) (.lookup (s.next.span.merge s₁.last) path) m as, s₂, ?_,
    ht.trans ht', by rw [Node.bare, Node.bare, hf]⟩
  rw [primary_of_pathText hne' hs fun h => by rw [List.length_append, List.length_singleton] at h; omega]
  have hlong : 1 < (path ++ [m]).length := by
    rw [List.length_append, List.length_singleton]
    omega
  unfold dottedValue
  rw [bind_of_ok (peek_run s), bind_of_ok hp, bind_of_ok (nextIs_run _ s₁),
    decide_eq_true (Reading.next_kind_of_cons hin), decide_eq_true hlong, Bool.and_true, if_pos rfl,
    bind_of_ok (spanFrom_run _ s₁), bind_of_ok ha, List.dropLast_concat, List.getLastD_concat]
  rfl

/-! ### Chains -/

theorem methodCalls_reads {more : List (String × List TokenKind × List Node)}
    (each : ∀ p ∈ more,
      Reads (List.map Node.bare) (arguments bound inner) unit known p.2.2 p.2.1 fun _ => True)
    {m : Nat} (hm : more.length ≤ m) (o : Node) :
    Reads Node.bare (methodCalls bound inner m o) unit known
      (more.foldl (fun o p => .call {} o p.1 p.2.2) o.bare)
      (more.flatMap fun p => .char '.' :: .name p.1 :: p.2.1) Rank.chain.Stops := by
  induction more generalizing o m with
  | nil =>
    intro s rest hu hn hs hk
    refine ⟨o, s, ?_, .refl s, rfl⟩
    cases m with
    | zero => rfl
    | succ m =>
      have hd : s.next.kind ≠ .char '.' := by
        rw [headD_next hs]
        exact hk.dot
      unfold methodCalls
      rw [bind_of_ok (accept_of_ne hd)]
      rfl
  | cons p more ih =>
    obtain ⟨x, w, ns⟩ := p
    obtain ⟨m, rfl⟩ : ∃ k, m = k + 1 := ⟨m - 1, by rw [List.length_cons] at hm; omega⟩
    intro s rest hu hn hs hk
    rw [List.flatMap_cons, List.append_assoc, List.cons_append, List.cons_append] at hs
    obtain ⟨hdot, hin⟩ := took_one hs (by simp)
    obtain ⟨hname, hargs⟩ := took_one hin (by simp)
    have ht := hdot.trans hname
    obtain ⟨as, s₁, ha, ht', hf⟩ := each _ (.head _) s.advance.advance _ (ht.unit.trans hu)
      (by rw [ht.names, hn]) hargs trivial
    have ht := ht.trans ht'
    obtain ⟨n, s₂, hc, ht', hf'⟩ := ih (fun q hq => each q (.tail _ hq))
      (Nat.le_of_succ_le_succ hm) (.call (o.span.merge s₁.last) o x as) s₁ rest (ht.unit.trans hu)
      (by rw [ht.names, hn]) (ht.rest (by rw [hs]; rfl)) hk
    refine ⟨n, s₂, ?_, ht.trans ht', ?_⟩
    · unfold methodCalls
      rw [bind_of_ok (accept_of_next (Reading.next_kind_of_cons hs)), if_pos rfl,
        bind_of_ok (expectName_of_next (Reading.next_kind_of_cons hin)), bind_of_ok ha,
        bind_of_ok (spanFrom_run _ s₁)]
      exact hc
    · rw [hf', Node.bare, hf]
      rfl

/-- An object and the method calls behind it, if the object is read with the first of them, or the
end, behind it. -/
theorem chain_reads {n : Node} {w : List TokenKind} {ok : TokenKind → Prop}
    (first : Reads Node.bare (primary bound inner) unit known n w ok)
    {more : List (String × List TokenKind × List Node)}
    (each : ∀ p ∈ more,
      Reads (List.map Node.bare) (arguments bound inner) unit known p.2.2 p.2.1 fun _ => True)
    (behind : ∀ k, Rank.chain.Stops k → (more = [] → ok k) ∧ (more ≠ [] → ok (.char '.')))
    (hm : more.length ≤ bound) :
    Reads Node.bare (primary bound inner >>= methodCalls bound inner bound) unit known
      (more.foldl (fun o p => .call {} o p.1 p.2.2) n)
      (w ++ more.flatMap fun p => .char '.' :: .name p.1 :: p.2.1) Rank.chain.Stops := by
  intro s rest hu hn hs hk
  rw [List.append_assoc] at hs
  have hok : ok (((more.flatMap fun p => .char '.' :: .name p.1 :: p.2.1) ++ rest).headD .eof) := by
    cases more with
    | nil => exact (behind _ hk).1 rfl
    | cons p more => exact (behind _ hk).2 (List.cons_ne_nil p more)
  obtain ⟨o, s₁, ho, ht, rfl⟩ := first s _ hu hn hs hok
  obtain ⟨n, s₂, hc, ht', hf⟩ := methodCalls_reads each hm o s₁ rest (ht.unit.trans hu)
    (by rw [ht.names, hn]) (ht.rest hs) hk
  refine ⟨n, s₂, ?_, ht.trans ht', hf⟩
  rw [bind_of_ok ho]
  exact hc

/-- A dotted name turns into a method call with the first arguments behind it. -/
theorem lookup_chain_reads {path : List String} (hne : path ≠ [])
    {more : List (String × List TokenKind × List Node)}
    (begins : ∀ p ∈ more, ∃ v, p.2.1 = .char '(' :: v)
    (each : ∀ p ∈ more,
      Reads (List.map Node.bare) (arguments bound inner) unit known p.2.2 p.2.1 fun _ => True)
    (hb : (pathText path ++ more.flatMap fun p => .char '.' :: .name p.1 :: p.2.1).length ≤ bound) :
    Reads Node.bare (primary bound inner >>= methodCalls bound inner bound) unit known
      (more.foldl (fun o p => .call {} o p.1 p.2.2) (.lookup {} path))
      (pathText path ++ more.flatMap fun p => .char '.' :: .name p.1 :: p.2.1) Rank.chain.Stops := by
  rw [List.length_append] at hb
  cases more with
  | nil =>
    exact chain_reads (lookup_reads hne (by omega)) each
      (fun k hk => ⟨fun _ => hk, fun h => absurd rfl h⟩) (Nat.zero_le bound)
  | cons p more =>
    obtain ⟨m, w, ns⟩ := p
    have hlen := length_le_flatMap more (fun p => .char '.' :: .name p.1 :: p.2.1) (by simp)
    have htext : pathText path ++ ((m, w, ns) :: more).flatMap (fun p =>
          TokenKind.char '.' :: .name p.1 :: p.2.1) =
        (pathText (path ++ [m]) ++ w) ++ more.flatMap fun p => .char '.' :: .name p.1 :: p.2.1 := by
      rw [pathText_concat hne, List.flatMap_cons]
      simp
    have hlong := congrArg List.length htext
    rw [htext]
    simp only [List.length_append] at hlong
    have hcall := dottedCall_reads (m := m) (w := w) hne (by rw [List.length_append]; omega) (begins _ (.head _))
      (each _ (.head _))
    exact chain_reads hcall (fun q hq => each q (.tail _ hq))
      (fun _ _ => ⟨fun _ => trivial, fun _ => trivial⟩) (by omega)

/-! ### Primaries -/

theorem literal_reads {k : TokenKind} {v : Literal} (h : Constant k v) :
    Reads Node.bare (primary bound inner) unit known (.literal {} v) [k] fun _ => True := by
  intro s rest hu hn hs _
  have hk := Reading.next_kind_of_cons (w := rest) hs
  have hne : k ≠ .eof := by cases h <;> simp
  refine ⟨.literal s.next.span v, s.advance, ?_, (took_one (w := rest) hs hne).1, by rw [Node.bare]⟩
  unfold primary
  rw [bind_of_ok (peek_run s), hk]
  cases h <;> rfl

theorem paren_reads {n : Node} {w : List TokenKind}
    (h : Reads Node.bare (inner .test) unit known n w Rank.disjunction.Stops) :
    Reads Node.bare (primary bound inner) unit known n (parens w) fun _ => True := by
  intro s rest hu hn hs _
  rw [parens_append] at hs
  obtain ⟨hopen, hin⟩ := took_one hs (by simp)
  obtain ⟨a, s₁, ha, ht, hf⟩ := h s.advance _ (hopen.unit.trans hu) (by rw [hopen.names, hn]) hin
    (stops_of_mem _ (by simp))
  have hrest := ht.rest hin
  obtain ⟨hclose, -⟩ := took_one hrest (by simp)
  refine ⟨a, s₁.advance, ?_, hopen.trans (ht.trans hclose), hf⟩
  unfold primary
  rw [bind_of_ok (peek_run s), Reading.next_kind_of_cons hs]
  show (do skip; let e ← inner .test; expect (.char ')'); return e : Parser Node) s = _
  rw [bind_of_ok (skip_run s), bind_of_ok ha,
    bind_of_ok (expect_of_next (Reading.next_kind_of_cons hrest))]
  rfl

/-- A name with a parenthesis behind it is entered as a call. -/
theorem primary_of_name {x : String} {s : Reading} {w : List TokenKind}
    (hs : s.kinds = .name x :: .char '(' :: w) :
    primary bound inner s = callByName bound inner x s.next.span s.advance := by
  have hsecond : (s.ahead 1).kind = .char '(' := by
    rw [Reading.ahead_kind, hs]
    rfl
  unfold primary
  rw [bind_of_ok (peek_run s), Reading.next_kind_of_cons hs]
  dsimp only
  rw [bind_of_ok (peekSecond_run s), if_pos hsecond, bind_of_ok (skip_run s)]

theorem str_reads (free : "str" ∉ known) {n : Node} {w : List TokenKind}
    (h : Reads Node.bare (inner .test) unit known n w Rank.disjunction.Stops) :
    Reads Node.bare (primary bound inner) unit known (.stringify {} n) (.name "str" :: parens w)
      fun _ => True := by
  intro s rest hu hn hs _
  rw [List.cons_append, parens_append] at hs
  obtain ⟨hname, hopens⟩ := took_one hs (by simp)
  obtain ⟨hopen, hin⟩ := took_one hopens (by simp)
  have ht₀ := hname.trans hopen
  obtain ⟨a, s₁, ha, ht, hf⟩ := h s.advance.advance _ (ht₀.unit.trans hu)
    (by rw [ht₀.names, hn]) hin (stops_of_mem _ (by simp))
  have hrest := ht.rest hin
  obtain ⟨hclose, -⟩ := took_one hrest (by simp)
  have hfree : ¬ s.advance.declares "str" = true := by
    rw [← hn, ← hname.names] at free
    exact free
  refine ⟨.stringify (s.next.span.merge s₁.advance.last) a, s₁.advance, ?_,
    ht₀.trans (ht.trans hclose), by rw [Node.bare, hf]⟩
  rw [primary_of_name hs]
  show (if s.advance.declares "str" then _ else _ : Parser Node) s.advance = _
  rw [if_neg hfree, if_pos rfl, bind_of_ok (expect_of_next (Reading.next_kind_of_cons hopens)),
    bind_of_ok ha, bind_of_ok (expect_of_next (Reading.next_kind_of_cons hrest))]
  rfl

theorem new_reads {c : String} (declared : c ∈ known) {ns : List Node} {w : List TokenKind}
    (hw : ∃ v, w = .char '(' :: v)
    (args : Reads (List.map Node.bare) (arguments bound inner) unit known ns w fun _ => True) :
    Reads Node.bare (primary bound inner) unit known (.new {} ⟨unit, c⟩ ns) (.name c :: w)
      fun _ => True := by
  intro s rest hu hn hs _
  obtain ⟨v, rfl⟩ := hw
  obtain ⟨hname, hin⟩ := took_one (k := .name c) hs (by simp)
  obtain ⟨as, s₁, ha, ht, hf⟩ := args s.advance rest (hname.unit.trans hu) (by rw [hname.names, hn])
    hin trivial
  have hd : s.advance.declares c = true := by
    rw [← hn, ← hname.names] at declared
    exact declared
  have hu' : s₁.unit = unit := (ht.unit.trans hname.unit).trans hu
  refine ⟨.new (s.next.span.merge s₁.last) ⟨s₁.unit, c⟩ as, s₁, ?_, hname.trans ht,
    by rw [Node.bare, hf, hu']⟩
  rw [primary_of_name hs]
  show (if s.advance.declares c then _ else _ : Parser Node) s.advance = _
  rw [if_pos hd, bind_of_ok ha]
  rfl

/-! ### The ranks -/

theorem minus_reads {n : Node} {w : List TokenKind}
    (h : Reads Node.bare (inner .signed) unit known n w Rank.signed.Stops) :
    Reads Node.bare (signed bound inner) unit known
      (.arith {} .sub (.literal {} (.int 0)) n) (.char '-' :: w) Rank.signed.Stops := by
  intro s rest hu hn hs hk
  obtain ⟨hsign, hin⟩ := took_one (w := w ++ rest) hs (by simp)
  obtain ⟨a, s', ha, ht, hf⟩ := h s.advance rest (hsign.unit.trans hu) (by rw [hsign.names, hn])
    hin hk
  refine ⟨joined (.arith · .sub) (.literal s.next.span (.int 0)) a, s', ?_, hsign.trans ht, ?_⟩
  · unfold signed
    rw [bind_of_ok (peek_run s),
      bind_of_ok (accept_of_next (Reading.next_kind_of_cons (w := w ++ rest) hs)), if_pos rfl,
      bind_of_ok ha]
    rfl
  · simp only [joined, Node.bare, hf]

/-- What does not begin with a sign is a chain. -/
theorem chain_reads_signed {n : Node} {w : List TokenKind} {k : TokenKind} {v : List TokenKind}
    (hw : w = k :: v) (hk : k ≠ .char '-')
    (h : Reads Node.bare (primary bound inner >>= methodCalls bound inner bound) unit known n w
      Rank.chain.Stops) :
    Reads Node.bare (signed bound inner) unit known n w Rank.signed.Stops := by
  subst hw
  intro s rest hu hn hs hstop
  obtain ⟨a, s', ha, ht, hf⟩ := h s rest hu hn hs hstop.tighter
  refine ⟨a, s', ?_, ht, hf⟩
  unfold signed
  rw [bind_of_ok (peek_run s), bind_of_ok (accept_of_ne (Reading.next_kind_ne_of_cons hs hk)),
    if_neg (by simp)]
  exact ha

theorem sum_reads_comparison {n : Node} {w : List TokenKind}
    (h : Reads Node.bare (sum bound inner) unit known n w Rank.sum.Stops) :
    Reads Node.bare (comparison bound inner) unit known n w Rank.comparison.Stops := by
  intro s rest hu hn hs hk
  obtain ⟨a, s', ha, ht, hf⟩ := h s rest hu hn hs hk.tighter
  refine ⟨a, s', ?_, ht, hf⟩
  unfold comparison
  rw [bind_of_ok ha, bind_of_ok (peek_run s'), headD_next (ht.rest hs), hk.comparator?]
  rfl

theorem compare_reads {l r : Node} {u v : List TokenKind} (op : Comparator)
    (left : Reads Node.bare (sum bound inner) unit known l u Rank.sum.Stops)
    (right : Reads Node.bare (sum bound inner) unit known r v Rank.sum.Stops) :
    Reads Node.bare (comparison bound inner) unit known (.compare {} op l r)
      (u ++ comparatorToken op :: v) Rank.comparison.Stops := by
  intro s rest hu hn hs hk
  rw [List.append_assoc, List.cons_append] at hs
  obtain ⟨a, s₁, ha, ht, hf⟩ := left s _ hu hn hs (stops_comparatorToken op)
  have hop := ht.rest hs
  obtain ⟨hone, hin⟩ := took_one hop (by cases op <;> simp [comparatorToken])
  have ht' := ht.trans hone
  obtain ⟨b, s₂, hb, ht₂, hf'⟩ := right s₁.advance rest (ht'.unit.trans hu) (by rw [ht'.names, hn])
    hin hk.tighter
  refine ⟨joined (.compare · op) a b, s₂, ?_, ht.trans (hone.trans ht₂), ?_⟩
  · have hc : comparator? s₁.next.kind = some op := by
      rw [Reading.next_kind_of_cons hop]
      cases op <;> rfl
    unfold comparison
    rw [bind_of_ok ha, bind_of_ok (peek_run s₁), hc]
    dsimp only
    rw [bind_of_ok (skip_run s₁), bind_of_ok hb]
    rfl
  · simp only [joined, Node.bare, hf, hf']

theorem not_reads {n : Node} {w : List TokenKind}
    (h : Reads Node.bare (inner .negation) unit known n w Rank.negation.Stops) :
    Reads Node.bare (negation bound inner) unit known (.not {} n) (.keyword .kNot :: w)
      Rank.negation.Stops := by
  intro s rest hu hn hs hk
  obtain ⟨hnot, hin⟩ := took_one (w := w ++ rest) hs (by simp)
  obtain ⟨a, s', ha, ht, hf⟩ := h s.advance rest (hnot.unit.trans hu) (by rw [hnot.names, hn])
    hin hk
  refine ⟨.not (s.next.span.merge a.span) a, s', ?_, hnot.trans ht, ?_⟩
  · unfold negation
    rw [bind_of_ok (peek_run s),
      bind_of_ok (accept_of_next (Reading.next_kind_of_cons (w := w ++ rest) hs)), if_pos rfl,
      bind_of_ok ha]
    rfl
  · simp only [Node.bare, hf]

/-- What does not begin with `not` is a comparison. -/
theorem comparison_reads_negation {n : Node} {w : List TokenKind} {k : TokenKind}
    {v : List TokenKind} (hw : w = k :: v) (hk : k ≠ .keyword .kNot)
    (h : Reads Node.bare (comparison bound inner) unit known n w Rank.comparison.Stops) :
    Reads Node.bare (negation bound inner) unit known n w Rank.negation.Stops := by
  subst hw
  intro s rest hu hn hs hstop
  obtain ⟨a, s', ha, ht, hf⟩ := h s rest hu hn hs hstop.tighter
  refine ⟨a, s', ?_, ht, hf⟩
  unfold negation
  rw [bind_of_ok (peek_run s), bind_of_ok (accept_of_ne (Reading.next_kind_ne_of_cons hs hk)),
    if_neg (by simp)]
  exact ha

end

/-! ### All expressions -/

/-- The expressions of each rank, as the readers know them. -/
def atRank (bound : Nat) (inner : Level → Parser Node) : Rank → Parser Node
  | .disjunction => disjunction bound inner
  | .conjunction => conjunction bound inner
  | .negation => negation bound inner
  | .comparison => comparison bound inner
  | .sum => sum bound inner
  | .product => product bound inner
  | .signed => signed bound inner
  | .chain => primary bound inner >>= methodCalls bound inner bound
  | .primary => primary bound inner

/-- A text is read as what it stands for wherever the bound allows for it. A dotted name is the one
primary of which this is not said: it is left to what stands behind it. -/
def Readable (unit : Nat) (known : Set String) : Phrase → List TokenKind → Prop
  | .expr .primary n, w =>
    (∃ path, path ≠ [] ∧ w = pathText path ∧ n = .lookup {} path) ∨
      ∀ k, w.length ≤ k + 1 →
        Reads Node.bare (primary (k + 1) (expression k)) unit known n w fun _ => True
  | .expr r n, w =>
    ∀ k, w.length ≤ k + 1 →
      Reads Node.bare (atRank (k + 1) (expression k) r) unit known n w r.Stops
  | .args ns, w =>
    ∀ k, w.length ≤ k + 1 →
      Reads (List.map Node.bare) (arguments (k + 1) (expression k)) unit known ns w fun _ => True

theorem expression_reads_of_readable {l : Level} {n : Node} {w : List TokenKind} {k : Nat}
    (h : Readable unit known (.expr l.rank n) w) (hpos : 0 < w.length) (hk : w.length ≤ k) :
    Reads Node.bare (expression k l) unit known n w l.rank.Stops := by
  obtain ⟨k, rfl⟩ : ∃ j, k = j + 1 := ⟨k - 1, by omega⟩
  cases l with
  | test => exact h k hk
  | negation => exact h k hk
  | signed => exact h k hk

theorem length_le_of_mem_flatMap {γ : Type} {xs : List γ} {x : γ} (h : x ∈ xs)
    (f : γ → List TokenKind) : (f x).length ≤ (xs.flatMap f).length := by
  obtain ⟨us, vs, rfl⟩ := List.append_of_mem h
  rw [List.flatMap_append, List.flatMap_cons, List.length_append, List.length_append]
  omega

theorem length_le_of_mem_commas {ws : List (List TokenKind)} {w : List TokenKind} (h : w ∈ ws) :
    w.length ≤ (commas ws).length := by
  induction ws with
  | nil => cases h
  | cons v ws ih =>
    by_cases hne : ws = []
    · subst hne
      obtain rfl := List.mem_singleton.1 h
      rw [commas_singleton]
    · rw [commas_cons hne, List.length_append, List.length_cons]
      obtain rfl | h := List.mem_cons.1 h
      · omega
      · have := ih h
        omega

theorem readable_iff {r : Rank} (h : r ≠ .primary) {n : Node} {w : List TokenKind} :
    Readable unit known (.expr r n) w ↔ ∀ k, w.length ≤ k + 1 →
      Reads Node.bare (atRank (k + 1) (expression k) r) unit known n w r.Stops := by
  cases r <;> first | exact absurd rfl h | exact Iff.rfl

theorem Readable.chain {n : Node} {w : List TokenKind}
    {more : List (String × List TokenKind × List Node)}
    (first : Readable unit known (.expr .primary n) w)
    (begins : ∀ p ∈ more, ∃ v, p.2.1 = .char '(' :: v)
    (rest : ∀ p ∈ more, Readable unit known (.args p.2.2) p.2.1) :
    Readable unit known (.expr .chain (more.foldl (fun o p => .call {} o p.1 p.2.2) n))
      (w ++ more.flatMap fun p => .char '.' :: .name p.1 :: p.2.1) := by
  intro k hk
  have hlen := length_le_flatMap more (fun p => .char '.' :: .name p.1 :: p.2.1) (by simp)
  have each : ∀ p ∈ more, Reads (List.map Node.bare) (arguments (k + 1) (expression k)) unit known
      p.2.2 p.2.1 fun _ => True := by
    intro p hp
    refine rest p hp k ?_
    have := length_le_of_mem_flatMap hp fun p => .char '.' :: .name p.1 :: p.2.1
    rw [List.length_append] at hk
    simp only [List.length_cons] at this
    omega
  obtain ⟨path, hne, rfl, rfl⟩ | first := first
  · exact lookup_chain_reads hne begins each hk
  · rw [List.length_append] at hk
    exact chain_reads (first k (by omega)) each
      (fun _ _ => ⟨fun _ => trivial, fun _ => trivial⟩) (by omega)

theorem rank_mem (op : BinOp) : op.rank ∈ [.disjunction, .conjunction, .sum, .product] := by
  rcases op with ⟨⟨⟩⟩ | ⟨⟨⟩⟩ <;> decide

theorem Readable.binary {r : Rank} {n : Node} {w : List TokenKind}
    {more : List (BinOp × List TokenKind × Node)} (text : ∃ k v, w = k :: v ∧ r.next.Begins k)
    (first : Readable unit known (.expr r.next n) w) (rank : ∀ p ∈ more, p.1.rank = r)
    (rest : ∀ p ∈ more, Readable unit known (.expr r.next p.2.2) p.2.1) :
    Readable unit known (.expr r (more.foldl (fun l p => p.1.node {} l p.2.2) n))
      (w ++ more.flatMap fun p => p.1.token :: p.2.1) := by
  by_cases hr : r ∈ [.disjunction, .conjunction, .sum, .product]
  · have hr' : r ≠ .primary ∧ r.next ≠ .primary := by
      revert hr
      cases r <;> decide
    rw [readable_iff hr'.2] at first
    rw [readable_iff hr'.1]
    intro k hk
    have hat : atRank (k + 1) (expression k) r =
        leftAssoc (joinOf r) (atRank (k + 1) (expression k) r.next) (k + 1) := by
      cases r <;> first | rfl | exact absurd hr (by decide)
    have hlen := length_le_flatMap more (fun p => p.1.token :: p.2.1) (by simp)
    rw [List.length_append] at hk
    rw [hat]
    refine leftAssoc_reads (first k (by omega)) rank (fun p hp => ?_) (by omega)
    refine (readable_iff hr'.2).1 (rest p hp) k ?_
    have := length_le_of_mem_flatMap hp fun p => p.1.token :: p.2.1
    rw [List.length_cons] at this
    omega
  · -- no operator makes an expression of this rank
    obtain rfl : more = [] := by
      cases more with
      | nil => rfl
      | cons p more =>
        obtain rfl := rank p (.head _)
        exact absurd (rank_mem p.1) hr
    rw [List.flatMap_nil, List.append_nil, List.foldl_nil]
    obtain ⟨k, v, hw, hk⟩ := text
    cases r with
    | negation =>
      have hnot : k ≠ .keyword .kNot := by
        rintro rfl
        exact absurd hk.of_not (by decide)
      exact fun m hm => comparison_reads_negation hw hnot (first m hm)
    | comparison => exact fun m hm => sum_reads_comparison (first m hm)
    | signed =>
      have hminus : k ≠ .char '-' := by
        rintro rfl
        obtain ⟨-, h⟩ | h := hk.of_char
        · exact absurd h (by decide)
        · exact absurd h (by decide)
      exact fun m hm => chain_reads_signed hw hminus (first m hm)
    | chain => simpa using @Readable.chain unit known n w [] first (by simp) (by simp)
    | primary => exact first
    | _ => exact absurd (by decide) hr

/-- Expressions between parentheses, as many as there are. -/
theorem parenthesized_expressions_read {item : Parser Node} {items : List (List TokenKind × Node)}
    (begins : ∀ p ∈ items, ∃ k v, p.1 = k :: v ∧ Rank.disjunction.Begins k)
    (each : ∀ p ∈ items, Reads Node.bare item unit known p.2 p.1 Rank.disjunction.Stops) {m : Nat}
    (hm : (commas (items.map Prod.fst)).length ≤ m + 1) :
    Reads (List.map Node.bare) (parenthesized item m) unit known (items.map Prod.snd)
      (parens (commas (items.map Prod.fst))) fun _ => True := by
  have hlen := length_le_commas fun w (hw : w ∈ items.map Prod.fst) => by
    obtain ⟨p, hp, rfl⟩ := List.mem_map.1 hw
    obtain ⟨l, v, hv, -⟩ := begins p hp
    rw [hv]
    exact List.cons_ne_nil l v
  rw [List.length_map] at hlen
  refine parenthesized_reads (stops_of_mem .disjunction (by simp))
    (stops_of_mem .disjunction (by simp)) each ?_ (by omega)
  intro p hp
  obtain ⟨l, v, hv, hl⟩ := begins p hp
  refine ⟨l, v, hv, ?_⟩
  rintro rfl
  obtain ⟨h, -⟩ | h := hl.of_char
  · exact absurd h (by decide)
  · exact absurd h (by decide)

theorem Readable.args {items : List (List TokenKind × Node)}
    (begins : ∀ p ∈ items, ∃ k v, p.1 = k :: v ∧ Rank.disjunction.Begins k)
    (each : ∀ p ∈ items, Readable unit known (.expr .disjunction p.2) p.1) :
    Readable unit known (.args (items.map Prod.snd)) (parens (commas (items.map Prod.fst))) := by
  intro k hk
  rw [parens_length] at hk
  refine parenthesized_expressions_read begins (fun p hp => ?_) (by omega)
  have := length_le_of_mem_commas (List.mem_map_of_mem (f := Prod.fst) hp)
  obtain ⟨l, v, hv, -⟩ := begins p hp
  exact expression_reads_of_readable (l := .test) (each p hp) (by rw [hv]; exact Nat.succ_pos _)
    (by omega)

theorem readable {p : Phrase} {w : List TokenKind} (h : Spells unit known p w) :
    Readable unit known p w := by
  induction h with
  | binary more first rank rest ih ih' => exact .binary first.begins ih rank ih'
  | not arg ih =>
    intro k hk
    rw [List.length_cons] at hk
    exact not_reads (expression_reads_of_readable (l := .negation) ih arg.length_pos (by omega))
  | @compare l r u v op left right ih ih' =>
    intro k hk
    rw [List.length_append, List.length_cons] at hk
    exact compare_reads op (ih k (by omega)) (ih' k (by omega))
  | minus arg ih =>
    intro k hk
    rw [List.length_cons] at hk
    exact minus_reads (expression_reads_of_readable (l := .signed) ih arg.length_pos (by omega))
  | call more first rest ih ih' => exact .chain ih (fun p hp => (rest p hp).opens) ih'
  | literal h => exact .inr fun k _ => literal_reads h
  | paren inner ih =>
    refine .inr fun k hk => ?_
    rw [parens_length] at hk
    exact paren_reads (expression_reads_of_readable (l := .test) ih inner.length_pos (by omega))
  | str free arg ih =>
    refine .inr fun k hk => ?_
    rw [List.length_cons, parens_length] at hk
    exact str_reads free (expression_reads_of_readable (l := .test) ih arg.length_pos (by omega))
  | new declared args ih =>
    refine .inr fun k hk => ?_
    rw [List.length_cons] at hk
    exact new_reads declared args.opens (ih k (by omega))
  | @lookup path h => exact .inl ⟨path, h, rfl, rfl⟩
  | dottedCall h args ih =>
    refine .inr fun k hk => ?_
    have hlen := hk
    rw [List.length_append] at hlen
    exact dottedCall_reads h hk args.opens (ih k (by omega))
  | args items each ih => exact .args (fun p hp => (each p hp).begins) ih

/-- What is an expression is read as one. -/
theorem expression_complete {l : Level} {n : Node} {w : List TokenKind} {k : Nat}
    (h : Spells unit known (.expr l.rank n) w) (hk : w.length ≤ k) :
    Reads Node.bare (expression k l) unit known n w l.rank.Stops :=
  expression_reads_of_readable (readable h) h.length_pos hk

/-- What is read from one place is one thing. -/
theorem Reads.unique {α β : Type} {f : α → β} {p : Parser α} {b b' : β} {w w' : List TokenKind}
    {ok ok' : TokenKind → Prop} (h : Reads f p unit known b w ok) (h' : Reads f p unit known b' w' ok')
    {s : Reading} (hu : s.unit = unit) (hn : s.names.declared = known) {rest rest' : List TokenKind}
    (hs : s.kinds = w ++ rest) (hs' : s.kinds = w' ++ rest') (hk : ok (rest.headD .eof))
    (hk' : ok' (rest'.headD .eof)) : b = b' ∧ w = w' ∧ rest = rest' := by
  obtain ⟨a, t, ha, ht, rfl⟩ := h s rest hu hn hs hk
  obtain ⟨a', t', ha', ht', rfl⟩ := h' s rest' hu hn hs' hk'
  rw [ha] at ha'
  cases ha'
  exact ⟨rfl, List.append_cancel_right (ht.text.symm.trans ht'.text),
    (ht.rest hs).symm.trans (ht'.rest hs')⟩

end Parser

end ClassScript

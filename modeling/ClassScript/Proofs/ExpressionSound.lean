import ClassScript.Proofs.Reading

/-!
# What is read as an expression is one

Whenever a reader of expressions succeeds, the text that it has taken is a text of the tree that it
gives.  Main statement: `expression_sound`, by induction on the nesting, from one lemma for each rank.
-/

namespace ClassScript

open Grammar

/-- `s'` stands behind the text `w` of `s`, in the same program and with the same classes. -/
structure Reading.Took (s : Reading) (w : List TokenKind) (s' : Reading) : Prop where
  text : s.kinds = w ++ s'.kinds
  unit : s'.unit = s.unit
  declared : s'.declared = s.declared

namespace Reading.Took

variable {s s' s'' : Reading} {v w : List TokenKind}

theorem refl (s : Reading) : s.Took [] s := ⟨rfl, rfl, rfl⟩

theorem trans (h : s.Took v s') (h' : s'.Took w s'') : s.Took (v ++ w) s'' :=
  ⟨by rw [h.text, h'.text, List.append_assoc], h'.unit.trans h.unit, h'.declared.trans h.declared⟩

theorem names (h : s.Took w s') : s'.names = s.names := names_congr h.declared

theorem advance {k : TokenKind} (h : s.next.kind = k) (hk : k ≠ .eof) : s.Took [k] s.advance :=
  ⟨kinds_of_next_kind h hk, unit_advance s, declared_advance s⟩

/-- One token and then a text. -/
theorem cons {k : TokenKind} (h : s.next.kind = k) (hk : k ≠ .eof) (h' : s.advance.Took w s') :
    s.Took (k :: w) s' :=
  (advance h hk).trans h'

/-- A text and then one token. -/
theorem concat {k : TokenKind} (h : s.Took w s') (h' : s'.next.kind = k) (hk : k ≠ .eof) :
    s.Took (w ++ [k]) s'.advance :=
  h.trans (advance h' hk)

end Reading.Took

namespace Grammar

@[simp] theorem commas_nil : commas [] = [] := rfl

@[simp] theorem commas_singleton (w : List TokenKind) : commas [w] = w := by
  simp [commas, List.intercalate]

theorem commas_cons {ws : List (List TokenKind)} (h : ws ≠ []) (w : List TokenKind) :
    commas (w :: ws) = w ++ .char ',' :: commas ws := by
  cases ws with
  | nil => exact absurd rfl h
  | cons v ws => simp [commas, List.intercalate]

/-- Texts with the bare trees of what they stand for. -/
def bareItems (items : List (List TokenKind × Node)) : List (List TokenKind × Node) :=
  items.map fun p => (p.1, p.2.bare)

theorem fst_bareItems (items : List (List TokenKind × Node)) :
    (bareItems items).map Prod.fst = items.map Prod.fst := by
  simp [bareItems, Function.comp_def]

theorem snd_bareItems (items : List (List TokenKind × Node)) :
    (bareItems items).map Prod.snd = (items.map Prod.snd).map Node.bare := by
  simp [bareItems, Function.comp_def]

theorem spells_bareItems {unit : Nat} {known : Set String} {r : Rank}
    {items : List (List TokenKind × Node)}
    (h : ∀ p ∈ items, Spells unit known (.expr r p.2.bare) p.1) :
    ∀ p ∈ bareItems items, Spells unit known (.expr r p.2) p.1 := by
  intro p hp
  obtain ⟨q, hq, rfl⟩ := List.mem_map.1 hp
  exact h q hq

theorem dropLast_concat_getLastD {path : List String} (h : path ≠ []) :
    path.dropLast ++ [path.getLastD ""] = path := by
  rw [List.getLastD_eq_getLast?, List.getLast?_eq_some_getLast h, Option.getD_some,
    List.dropLast_concat_getLast]

theorem pathText_cons (x : String) (xs : List String) :
    pathText (x :: xs) = .name x :: xs.flatMap fun y => [.char '.', .name y] := by
  induction xs generalizing x with
  | nil => rfl
  | cons y ys ih =>
    have h := ih y
    unfold pathText at h ⊢
    rw [List.map_cons, List.map_cons, List.intersperse_cons_cons, ← List.map_cons, h]
    rfl

end Grammar

/-- The rank of a level. -/
def Level.rank : Level → Rank
  | .test => .disjunction
  | .negation => .negation
  | .signed => .signed

namespace Parser

variable {α : Type}

/-- Whatever `p` gives has the text that was taken as one of its texts in the sense of `P`. -/
def Sound (p : Parser α) (P : Nat → Set String → α → List TokenKind → Prop) : Prop :=
  ∀ s a s', p s = .ok (a, s') → ∃ w, s.Took w s' ∧ P s.unit s.names.declared a w

/-- Whatever `p` gives is an expression of a rank. -/
abbrev SoundAt (p : Parser Node) (r : Rank) : Prop :=
  Sound p fun unit known n w => Spells unit known (.expr r n.bare) w

/-! ### Lists -/

theorem commaList_sound {item : Parser α} {P : Nat → Set String → α → List TokenKind → Prop}
    (h : Sound item P) (m : Nat) :
    Sound (commaList item m) fun unit known as w =>
      ∃ items : List (List TokenKind × α), items ≠ [] ∧ as = items.map Prod.snd ∧
        w = commas (items.map Prod.fst) ∧ ∀ p ∈ items, P unit known p.2 p.1 := by
  induction m with
  | zero =>
    intro s as s' hs
    obtain ⟨a, s₁, ha, hp⟩ := bind_eq_ok.1 hs
    obtain ⟨rfl, rfl⟩ := pure_eq_ok.1 hp
    obtain ⟨w, hw, hP⟩ := h s a _ ha
    exact ⟨w, hw, [(w, a)], by simp, rfl, by simp, by simpa using hP⟩
  | succ m ih =>
    intro s as s' hs
    obtain ⟨a, s₁, ha, hs⟩ := bind_eq_ok.1 hs
    obtain ⟨w, hw, hP⟩ := h s a _ ha
    by_cases hc : s₁.next.kind = .char ','
    · rw [bind_of_ok (accept_of_next hc)] at hs
      obtain ⟨bs, s₂, hb, hp⟩ := bind_eq_ok.1 hs
      obtain ⟨rfl, rfl⟩ := pure_eq_ok.1 hp
      obtain ⟨v, hv, items, hne, rfl, rfl, hall⟩ := ih _ _ _ hb
      have hv' := Reading.Took.cons hc (by simp) hv
      refine ⟨_, hw.trans hv', (w, a) :: items, by simp, rfl, ?_, ?_⟩
      · rw [List.map_cons, commas_cons (by simpa using hne)]
      · intro p hp
        obtain rfl | hp := List.mem_cons.1 hp
        · exact hP
        · have := hall p hp
          have ht := hw.concat hc (by simp)
          rwa [ht.unit, ht.names] at this
    · rw [bind_of_ok (accept_of_ne hc)] at hs
      obtain ⟨rfl, rfl⟩ := pure_eq_ok.1 hs
      exact ⟨w, hw, [(w, a)], by simp, rfl, by simp, by simpa using hP⟩

theorem parenthesized_sound {item : Parser α} {P : Nat → Set String → α → List TokenKind → Prop}
    (h : Sound item P) (m : Nat) :
    Sound (parenthesized item m) fun unit known as w =>
      ∃ items : List (List TokenKind × α), as = items.map Prod.snd ∧
        w = parens (commas (items.map Prod.fst)) ∧ ∀ p ∈ items, P unit known p.2 p.1 := by
  intro s as s' hs
  obtain ⟨_, s₁, he, hs⟩ := bind_eq_ok.1 hs
  obtain ⟨ho, rfl⟩ := expect_eq_ok.1 he
  by_cases hc : s.advance.next.kind = .char ')'
  · rw [bind_of_ok (accept_of_next hc)] at hs
    obtain ⟨rfl, rfl⟩ := pure_eq_ok.1 hs
    have ht := Reading.Took.cons ho (by simp) (.advance hc (by simp))
    exact ⟨_, ht, [], rfl, rfl, by simp⟩
  · rw [bind_of_ok (accept_of_ne hc)] at hs
    obtain ⟨bs, s₂, hb, hs⟩ := bind_eq_ok.1 hs
    obtain ⟨_, s₃, he, hp⟩ := bind_eq_ok.1 hs
    obtain ⟨hcl, rfl⟩ := expect_eq_ok.1 he
    obtain ⟨rfl, rfl⟩ := pure_eq_ok.1 hp
    obtain ⟨w, hw, items, -, rfl, rfl, hall⟩ := commaList_sound h m _ _ _ hb
    have ht := Reading.Took.cons ho (by simp) (hw.concat hcl (by simp))
    refine ⟨_, ht, items, rfl, rfl, fun p hp => ?_⟩
    have := hall p hp
    have ht := Reading.Took.advance ho (by simp)
    rwa [ht.unit, ht.names] at this

/-! ### Operators between operands -/

theorem bare_joined (op : BinOp) (l r : Node) :
    (joined op.node l r).bare = op.node {} l.bare r.bare := by
  cases op <;> simp [joined, BinOp.node]

/-- The nodes that the operators of a rank make, as the readers know them. -/
def joinOf : Rank → TokenKind → Option (Node → Node → Node)
  | .disjunction => or?
  | .conjunction => and?
  | .sum => sum?
  | .product => product?
  | _ => fun _ => none

theorem joinOf_token (op : BinOp) : joinOf op.rank op.token = some (joined op.node) := by
  rcases op with ⟨⟨⟩⟩ | ⟨⟨⟩⟩ <;> rfl

theorem joinOf_eq_some {r : Rank} {k : TokenKind} {f : Node → Node → Node}
    (h : joinOf r k = some f) : ∃ op : BinOp, op.rank = r ∧ op.token = k ∧ f = joined op.node := by
  cases r with
  | disjunction =>
    simp only [joinOf, or?] at h
    split at h
    · cases h
      exact ⟨.logic .or, rfl, rfl, rfl⟩
    · cases h
  | conjunction =>
    simp only [joinOf, and?] at h
    split at h
    · cases h
      exact ⟨.logic .and, rfl, rfl, rfl⟩
    · cases h
  | sum =>
    simp only [joinOf, sum?] at h
    split at h
    · cases h
      exact ⟨.arith .add, rfl, rfl, rfl⟩
    · cases h
      exact ⟨.arith .sub, rfl, rfl, rfl⟩
    · cases h
  | product =>
    simp only [joinOf, product?] at h
    split at h
    · cases h
      exact ⟨.arith .mul, rfl, rfl, rfl⟩
    · cases h
      exact ⟨.arith .div, rfl, rfl, rfl⟩
    · cases h
  | _ => cases h

theorem token_ne_eof (op : BinOp) : op.token ≠ .eof := by
  rcases op with ⟨⟨⟩⟩ | ⟨⟨⟩⟩ <;> simp [BinOp.token]

theorem comparator?_eq_some {k : TokenKind} {op : Comparator} (hk : comparator? k = some op) :
    comparatorToken op = k := by
  unfold comparator? at hk
  split at hk <;> cases hk <;> rfl

theorem operands_sound {r q : Rank} {operand : Parser Node} (h : SoundAt operand q) (m : Nat)
    {l n : Node} {s s' : Reading} (hs : operands (joinOf r) operand m l s = .ok (n, s')) :
    ∃ more : List (BinOp × List TokenKind × Node),
      s.Took (more.flatMap fun p => p.1.token :: p.2.1) s' ∧ (∀ p ∈ more, p.1.rank = r) ∧
        (∀ p ∈ more, Spells s.unit s.names.declared (.expr q p.2.2) p.2.1) ∧
        n.bare = more.foldl (fun l p => p.1.node {} l p.2.2) l.bare := by
  induction m generalizing l s with
  | zero =>
    obtain ⟨rfl, rfl⟩ := pure_eq_ok.1 hs
    exact ⟨[], .refl _, by simp, by simp, rfl⟩
  | succ m ih =>
    unfold operands at hs
    rw [bind_of_ok (peek_run s)] at hs
    cases hj : joinOf r s.next.kind with
    | none =>
      rw [hj] at hs
      obtain ⟨rfl, rfl⟩ := pure_eq_ok.1 hs
      exact ⟨[], .refl _, by simp, by simp, rfl⟩
    | some f =>
      rw [hj] at hs
      dsimp only at hs
      obtain ⟨op, hr, ht, rfl⟩ := joinOf_eq_some hj
      rw [bind_of_ok (skip_run s)] at hs
      obtain ⟨right, s₁, ho, hs⟩ := bind_eq_ok.1 hs
      obtain ⟨v, hv, hsp⟩ := h _ _ _ ho
      have hop := Reading.Took.advance ht.symm (token_ne_eof op)
      have hv := hop.trans hv
      obtain ⟨more, hm, hrank, hall, hn⟩ := ih hs
      refine ⟨(op, v, right.bare) :: more, hv.trans hm, ?_, ?_, ?_⟩
      · intro p hp
        obtain rfl | hp := List.mem_cons.1 hp
        · exact hr
        · exact hrank p hp
      · intro p hp
        obtain rfl | hp := List.mem_cons.1 hp
        · rwa [hop.unit, hop.names] at hsp
        · have := hall p hp
          rwa [hv.unit, hv.names] at this
      · rw [hn, bare_joined]
        rfl

theorem leftAssoc_sound {r : Rank} {operand : Parser Node} (h : SoundAt operand r.next) (m : Nat) :
    SoundAt (leftAssoc (joinOf r) operand m) r := by
  intro s n s' hs
  obtain ⟨l, s₁, hl, hs⟩ := bind_eq_ok.1 hs
  obtain ⟨w, hw, hsp⟩ := h _ _ _ hl
  obtain ⟨more, hm, hrank, hall, hn⟩ := operands_sound h m hs
  refine ⟨_, hw.trans hm, ?_⟩
  dsimp only
  rw [hn]
  refine .binary more hsp hrank fun p hp => ?_
  have := hall p hp
  rwa [hw.unit, hw.names] at this

/-! ### Names -/

theorem moreNames_sound (m : Nat) {s s' : Reading} {xs : List String}
    (hs : moreNames m s = .ok (xs, s')) :
    s.Took (xs.flatMap fun x => [.char '.', .name x]) s' := by
  induction m generalizing s xs with
  | zero =>
    obtain ⟨rfl, rfl⟩ := pure_eq_ok.1 hs
    exact .refl _
  | succ m ih =>
    unfold moreNames at hs
    rw [bind_of_ok (nextIs_run _ s)] at hs
    by_cases hd : s.next.kind = .char '.'
    · rw [decide_eq_true hd, if_pos rfl, bind_of_ok (peekSecond_run s)] at hs
      cases hk : (s.ahead 1).kind with
      | name x =>
        rw [hk] at hs
        dsimp only at hs
        rw [bind_of_ok (skip_run s), bind_of_ok (skip_run _)] at hs
        obtain ⟨ys, s₁, hy, hp⟩ := bind_eq_ok.1 hs
        obtain ⟨rfl, rfl⟩ := pure_eq_ok.1 hp
        have hx : s.advance.next.kind = .name x := by
          rw [Reading.ahead_kind] at hk
          rw [Reading.next, Reading.ahead_kind, Reading.kinds_advance, ← hk]
          simp
        exact .cons hd (by simp) (.cons hx (by simp) (ih hy))
      | _ =>
        rw [hk] at hs
        obtain ⟨rfl, rfl⟩ := pure_eq_ok.1 hs
        exact .refl _
    · rw [decide_eq_false hd, if_neg (by simp)] at hs
      obtain ⟨rfl, rfl⟩ := pure_eq_ok.1 hs
      exact .refl _

theorem dottedName_sound (m : Nat) {s s' : Reading} {path : List String}
    (hs : dottedName m s = .ok (path, s')) : s.Took (pathText path) s' ∧ path ≠ [] := by
  obtain ⟨x, s₁, he, hs⟩ := bind_eq_ok.1 hs
  obtain ⟨hx, rfl⟩ := expectName_eq_ok.1 he
  obtain ⟨xs, s₂, hm, hp⟩ := bind_eq_ok.1 hs
  obtain ⟨rfl, rfl⟩ := pure_eq_ok.1 hp
  rw [pathText_cons]
  exact ⟨.cons hx (by simp) (moreNames_sound m hm), by simp⟩

/-! ### The ranks -/

section

variable {bound : Nat} {inner : Level → Parser Node} (h : ∀ l, SoundAt (inner l) l.rank)
include h

theorem arguments_sound :
    Sound (arguments bound inner) fun unit known ns w =>
      Spells unit known (.args (ns.map Node.bare)) w := by
  intro s ns s' hs
  obtain ⟨w, hw, items, rfl, rfl, hall⟩ := parenthesized_sound (h .test) bound s ns s' hs
  refine ⟨_, hw, ?_⟩
  have := Spells.args (bareItems items) (spells_bareItems hall)
  rwa [fst_bareItems, snd_bareItems] at this

theorem callByName_sound {name : String} {start : Span} {s s' : Reading} {n : Node}
    (hs : callByName bound inner name start s = .ok (n, s')) :
    ∃ w, s.Took w s' ∧
      Spells s.unit s.names.declared (.expr .primary n.bare) (.name name :: w) := by
  change (if s.declares name then _ else _ : Parser Node) s = _ at hs
  split at hs
  · rename_i hd
    obtain ⟨ns, s₁, ha, hs⟩ := bind_eq_ok.1 hs
    obtain ⟨w, hw, hsp⟩ := arguments_sound h s ns s₁ ha
    cases hs
    refine ⟨w, hw, ?_⟩
    rw [Node.bare, hw.unit]
    exact .new hd hsp
  · rename_i hd
    split at hs
    · rename_i hn
      subst hn
      obtain ⟨_, s₁, he, hs⟩ := bind_eq_ok.1 hs
      obtain ⟨ho, rfl⟩ := expect_eq_ok.1 he
      obtain ⟨arg, s₂, ha, hs⟩ := bind_eq_ok.1 hs
      obtain ⟨_, s₃, he, hs⟩ := bind_eq_ok.1 hs
      obtain ⟨hc, rfl⟩ := expect_eq_ok.1 he
      cases hs
      obtain ⟨w, hw, hsp⟩ := h .test _ _ _ ha
      have ht := Reading.Took.advance ho (by simp)
      rw [ht.unit, ht.names] at hsp
      rw [Node.bare]
      exact ⟨_, ht.trans (hw.concat hc (by simp)), .str hd hsp⟩
    · cases hs

theorem dottedValue_sound : SoundAt (dottedValue bound inner) .primary := by
  intro s n s' hs
  unfold dottedValue at hs
  rw [bind_of_ok (peek_run s)] at hs
  obtain ⟨path, s₁, hp, hs⟩ := bind_eq_ok.1 hs
  obtain ⟨hw, hne⟩ := dottedName_sound bound hp
  rw [bind_of_ok (nextIs_run _ s₁)] at hs
  split at hs
  · rename_i hc
    rw [Bool.and_eq_true, decide_eq_true_iff, decide_eq_true_iff] at hc
    rw [bind_of_ok (spanFrom_run _ s₁)] at hs
    obtain ⟨ns, s₂, ha, hs⟩ := bind_eq_ok.1 hs
    obtain ⟨w, hv, hsp⟩ := arguments_sound h _ _ _ ha
    cases hs
    refine ⟨_, hw.trans hv, ?_⟩
    have hpre : path.dropLast ≠ [] := by
      intro h0
      have := congrArg List.length h0
      rw [List.length_dropLast, List.length_nil] at this
      omega
    rw [hw.unit, hw.names] at hsp
    simp only [Node.bare]
    have := Spells.dottedCall (m := path.getLastD "") hpre hsp
    rwa [dropLast_concat_getLastD hne] at this
  · cases hs
    refine ⟨_, hw, ?_⟩
    simp only [Node.bare]
    exact .lookup hne

omit h in
/-- A constant has the token that stands for it as its text. -/
theorem literal_sound {s : Reading} {k : TokenKind} {v : Literal} (span : Span)
    (hk : s.next.kind = k) (hv : Constant k v) :
    ∃ w, s.Took w s.advance ∧
      Spells s.unit s.names.declared (.expr .primary (Node.literal span v).bare) w := by
  have hne : k ≠ .eof := by cases hv <;> simp
  refine ⟨[k], .advance hk hne, ?_⟩
  simp only [Node.bare]
  exact .literal hv

set_option linter.auxLemma false in
theorem primary_sound : SoundAt (primary bound inner) .primary := by
  intro s n s' hs
  unfold primary at hs
  rw [bind_of_ok (peek_run s)] at hs
  cases hk : s.next.kind with
  | name x =>
    rw [hk] at hs
    dsimp only at hs
    rw [bind_of_ok (peekSecond_run s)] at hs
    split at hs
    · rw [bind_of_ok (skip_run s)] at hs
      obtain ⟨w, hw, hsp⟩ := callByName_sound h hs
      have ht := Reading.Took.advance hk (by simp)
      rw [ht.unit, ht.names] at hsp
      exact ⟨_, ht.trans hw, hsp⟩
    · exact dottedValue_sound h s n s' hs
  | number i =>
    rw [hk] at hs
    cases hs
    exact literal_sound _ hk (.number i)
  | string t =>
    rw [hk] at hs
    cases hs
    exact literal_sound _ hk (.string t)
  | keyword k =>
    rw [hk] at hs
    cases k with
    | kTrue =>
      cases hs
      exact literal_sound _ hk .true
    | kFalse =>
      cases hs
      exact literal_sound _ hk .false
    | kNone =>
      cases hs
      exact literal_sound _ hk .none
    | _ => cases hs
  | char c =>
    -- `split` has no equations for a match that mixes characters with numbers.
    rw [hk] at hs
    by_cases hc : c = '('
    · subst hc
      change (do skip; let e ← inner .test; expect (.char ')'); return e : Parser Node) s = _ at hs
      rw [bind_of_ok (skip_run s)] at hs
      obtain ⟨arg, s₁, ha, hs⟩ := bind_eq_ok.1 hs
      obtain ⟨_, s₂, he, hs⟩ := bind_eq_ok.1 hs
      obtain ⟨hcl, rfl⟩ := expect_eq_ok.1 he
      obtain ⟨rfl, rfl⟩ := pure_eq_ok.1 hs
      obtain ⟨w, hw, hsp⟩ := h .test _ _ _ ha
      have ht := Reading.Took.advance hk (by simp)
      rw [ht.unit, ht.names] at hsp
      exact ⟨_, ht.trans (hw.concat hcl (by simp)), .paren hsp⟩
    · delta primary.match_1 at hs
      change (dite (c = '(') _ fun _ => unexpected "expression" s.next) s = _ at hs
      rw [dif_neg hc] at hs
      cases hs
  | _ =>
    rw [hk] at hs
    cases hs

theorem methodCalls_sound (m : Nat) {o n : Node} {s s' : Reading}
    (hs : methodCalls bound inner m o s = .ok (n, s')) :
    ∃ more : List (String × List TokenKind × List Node),
      s.Took (more.flatMap fun p => .char '.' :: .name p.1 :: p.2.1) s' ∧
        (∀ p ∈ more, Spells s.unit s.names.declared (.args p.2.2) p.2.1) ∧
        n.bare = more.foldl (fun o p => .call {} o p.1 p.2.2) o.bare := by
  induction m generalizing o s with
  | zero =>
    obtain ⟨rfl, rfl⟩ := pure_eq_ok.1 hs
    exact ⟨[], .refl _, by simp, rfl⟩
  | succ m ih =>
    unfold methodCalls at hs
    by_cases hd : s.next.kind = .char '.'
    · rw [bind_of_ok (accept_of_next hd)] at hs
      obtain ⟨x, s₁, he, hs⟩ := bind_eq_ok.1 hs
      obtain ⟨hx, rfl⟩ := expectName_eq_ok.1 he
      obtain ⟨ns, s₂, ha, hs⟩ := bind_eq_ok.1 hs
      rw [bind_of_ok (spanFrom_run _ s₂)] at hs
      obtain ⟨w, hw, hsp⟩ := arguments_sound h _ _ _ ha
      have hx := Reading.Took.cons hd (by simp) (.advance hx (by simp))
      rw [hx.unit, hx.names] at hsp
      have hw := hx.trans hw
      obtain ⟨more, hm, hall, hn⟩ := ih hs
      refine ⟨(x, w, ns.map Node.bare) :: more, hw.trans hm, ?_, ?_⟩
      · intro p hp
        obtain rfl | hp := List.mem_cons.1 hp
        · exact hsp
        · have := hall p hp
          rwa [hw.unit, hw.names] at this
      · rw [hn, Node.bare]
        rfl
    · rw [bind_of_ok (accept_of_ne hd)] at hs
      obtain ⟨rfl, rfl⟩ := pure_eq_ok.1 hs
      exact ⟨[], .refl _, by simp, rfl⟩

theorem chain_sound :
    SoundAt (primary bound inner >>= methodCalls bound inner bound) .chain := by
  intro s n s' hs
  obtain ⟨o, s₁, ho, hs⟩ := bind_eq_ok.1 hs
  obtain ⟨w, hw, hsp⟩ := primary_sound h _ _ _ ho
  obtain ⟨more, hm, hall, hn⟩ := methodCalls_sound h bound hs
  refine ⟨_, hw.trans hm, ?_⟩
  rw [hw.unit, hw.names] at hall
  have hc := Spells.call more hsp hall
  rw [← hn] at hc
  exact hc

theorem signed_sound : SoundAt (signed bound inner) .signed := by
  intro s n s' hs
  unfold signed at hs
  rw [bind_of_ok (peek_run s)] at hs
  by_cases hm : s.next.kind = .char '-'
  · rw [bind_of_ok (accept_of_next hm)] at hs
    obtain ⟨arg, s₁, ha, hs⟩ := bind_eq_ok.1 hs
    obtain ⟨rfl, rfl⟩ := pure_eq_ok.1 hs
    obtain ⟨w, hw, hsp⟩ := h .signed _ _ _ ha
    have ht := Reading.Took.advance hm (by simp)
    rw [ht.unit, ht.names] at hsp
    refine ⟨_, ht.trans hw, ?_⟩
    simp only [joined, Node.bare]
    exact .minus hsp
  · rw [bind_of_ok (accept_of_ne hm)] at hs
    obtain ⟨w, hw, hsp⟩ := chain_sound h s n s' hs
    exact ⟨w, hw, hsp.looser⟩

theorem product_sound : SoundAt (product bound inner) .product :=
  leftAssoc_sound (r := .product) (signed_sound h) bound

theorem sum_sound : SoundAt (sum bound inner) .sum :=
  leftAssoc_sound (r := .sum) (product_sound h) bound

theorem comparison_sound : SoundAt (comparison bound inner) .comparison := by
  intro s n s' hs
  unfold comparison at hs
  obtain ⟨l, s₁, hl, hs⟩ := bind_eq_ok.1 hs
  obtain ⟨u, hu, hleft⟩ := sum_sound h _ _ _ hl
  rw [bind_of_ok (peek_run s₁)] at hs
  cases hc : comparator? s₁.next.kind with
  | none =>
    rw [hc] at hs
    obtain ⟨rfl, rfl⟩ := pure_eq_ok.1 hs
    exact ⟨u, hu, hleft.looser⟩
  | some op =>
    rw [hc] at hs
    dsimp only at hs
    have hk := comparator?_eq_some hc
    rw [bind_of_ok (skip_run s₁)] at hs
    obtain ⟨r, s₂, hr, hs⟩ := bind_eq_ok.1 hs
    obtain ⟨rfl, rfl⟩ := pure_eq_ok.1 hs
    obtain ⟨v, hv, hright⟩ := sum_sound h _ _ _ hr
    have hu := hu.concat hk.symm (by cases op <;> simp [comparatorToken])
    rw [hu.unit, hu.names] at hright
    refine ⟨_, hu.trans hv, ?_⟩
    simp only [joined, Node.bare, List.append_assoc]
    exact .compare op hleft hright

theorem negation_sound : SoundAt (negation bound inner) .negation := by
  intro s n s' hs
  unfold negation at hs
  rw [bind_of_ok (peek_run s)] at hs
  by_cases hk : s.next.kind = .keyword .kNot
  · rw [bind_of_ok (accept_of_next hk)] at hs
    obtain ⟨arg, s₁, ha, hs⟩ := bind_eq_ok.1 hs
    obtain ⟨rfl, rfl⟩ := pure_eq_ok.1 hs
    obtain ⟨w, hw, hsp⟩ := h .negation _ _ _ ha
    have ht := Reading.Took.advance hk (by simp)
    rw [ht.unit, ht.names] at hsp
    refine ⟨_, ht.trans hw, ?_⟩
    simp only [Node.bare]
    exact .not hsp
  · rw [bind_of_ok (accept_of_ne hk)] at hs
    obtain ⟨w, hw, hsp⟩ := comparison_sound h _ _ _ hs
    exact ⟨w, hw, hsp.looser⟩

theorem conjunction_sound : SoundAt (conjunction bound inner) .conjunction :=
  leftAssoc_sound (r := .conjunction) (negation_sound h) bound

theorem disjunction_sound : SoundAt (disjunction bound inner) .disjunction :=
  leftAssoc_sound (r := .disjunction) (conjunction_sound h) bound

theorem atLevel_sound (l : Level) : SoundAt (atLevel bound inner l) l.rank := by
  cases l with
  | test => exact disjunction_sound h
  | negation => exact negation_sound h
  | signed => exact signed_sound h

end

/-- Whatever is read as an expression is one. -/
theorem expression_sound (n : Nat) (l : Level) : SoundAt (expression n l) l.rank := by
  induction n generalizing l with
  | zero =>
    intro s n s' hs
    cases hs
  | succ n ih => exact atLevel_sound ih l

end Parser

end ClassScript

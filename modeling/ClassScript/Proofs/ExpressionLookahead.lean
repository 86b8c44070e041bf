import ClassScript.Proofs.Lookahead

/-!
# Expressions are read promptly

A reader of expressions looks one token ahead and stops at the first token that no expression goes on with.
The one place that looks two tokens ahead is a dotted name: a dot that no name follows is left to the method
calls, which do not take it either.  `named` reads such a name with no look behind the dot; where `primary`
and `methodCalls` follow one another it makes no difference (`named_methodCalls`).  Main statement:
`expression_reader`.
-/

namespace ClassScript

open Grammar

namespace Grammar

/-- The texts of expressions of a rank. -/
def IsExpr (unit : Nat) (known : Set String) (r : Rank) (w : List TokenKind) : Prop :=
  ∃ n, Spells unit known (.expr r n) w

variable {unit : Nat} {known : Set String} {r : Rank} {w : List TokenKind}

theorem IsExpr.loosen {q : Rank} (h : IsExpr unit known q w) (hr : r.tightness ≤ q.tightness) :
    IsExpr unit known r w :=
  h.imp fun _ hn => hn.loosen hr

theorem isExpr_number (unit : Nat) (known : Set String) (r : Rank) : IsExpr unit known r [.number 0] :=
  IsExpr.loosen ⟨_, .literal (.number 0)⟩ (by cases r <;> decide)

theorem IsExpr.foreign_not_mem (h : IsExpr unit known r w) {k : TokenKind} (hk : k ∈ foreign) : k ∉ w :=
  h.elim fun _ hn => hn.foreign_not_mem hk

/-- An expression does not end its line. -/
theorem Clean.append_expr {past : List TokenKind} (hpast : Clean past) (h : IsExpr unit known r w) :
    Clean (past ++ w) :=
  hpast.append (h.foreign_not_mem (by decide)) (h.foreign_not_mem (by decide))

theorem exists_items {ws : List (List TokenKind)} (h : ∀ v ∈ ws, IsExpr unit known r v) :
    ∃ items : List (List TokenKind × Node), items.map Prod.fst = ws ∧
      ∀ p ∈ items, Spells unit known (.expr r p.2) p.1 := by
  induction ws with
  | nil => exact ⟨[], rfl, by simp⟩
  | cons v ws ih =>
    obtain ⟨⟨n, hn⟩, hws⟩ := List.forall_mem_cons.1 h
    obtain ⟨items, rfl, hitems⟩ := ih hws
    exact ⟨(v, n) :: items, rfl, List.forall_mem_cons.2 ⟨hn, hitems⟩⟩

theorem exists_args (h : Parser.Parens (IsExpr unit known .disjunction) w) :
    ∃ ns, Spells unit known (.args ns) w := by
  obtain ⟨ws, hws, rfl⟩ := h
  obtain ⟨items, rfl, hitems⟩ := exists_items hws
  exact ⟨_, .args items hitems⟩

/-- Expressions may stand with commas between them. -/
theorem items_isExpr (unit : Nat) (known : Set String) :
    Parser.Items Fresh (IsExpr unit known .disjunction) where
  exist := ⟨_, isExpr_number unit known _⟩
  ne_nil := by
    rintro w ⟨n, hn⟩ rfl
    exact absurd hn.length_pos (by simp)
  again past w hpast hw := (hpast.2.append_expr hw).fresh_concat (by simp) (by simp) (by simp)

end Grammar

namespace Reading

theorem rest_length_pos {s : Reading} (h : s.next.kind ≠ .eof) : 0 < s.rest.length := by
  rw [← length_kinds, kinds_of_next_kind rfl h]
  exact Nat.succ_pos _

end Reading

namespace Parser

variable {c N unit : Nat} {known : Set String} {past : List TokenKind} {s : Reading}

/-! ### Operators between operands -/

theorem operands_prompt {r : Rank} {P : Nat → Parser Node}
    (h : Reader c N unit known Fresh (IsExpr unit known r.next) P) {b i : Nat} (hc : c ≤ b)
    (hi : i ≤ b) (hN : s.rest.length ≤ N) (hat : s.At unit known) {u : List TokenKind}
    (hu : IsExpr unit known r u) (hclean : Clean past) (cool : Cool past s.next.kind) (l : Node) :
    Prompt b past s (fun v => IsExpr unit known r (u ++ v))
      fun m => operands (joinOf r) (P m) (m - i) l := by
  induction hn : s.rest.length using Nat.strong_induction_on generalizing past s b i u l with
  | _ n ih =>
    subst hn
    cases hj : joinOf r s.next.kind with
    | none =>
      refine Prompt.done (a := l) (fun t m ht => ?_) cool
      cases m - i with
      | zero => rfl
      | succ m =>
        unfold operands
        rw [bind_of_ok (peek_run t), ht.next (by omega), hj]
        rfl
    | some join =>
      obtain ⟨op, rfl, hop, rfl⟩ := joinOf_eq_some hj
      have hne := token_ne_eof op
      have hpos := Reading.rest_length_pos (s := s) (by rwa [← hop])
      have hone := Reading.Took.advance hop.symm hne
      have hlen := hone.length
      rw [List.length_singleton] at hlen
      have hforeign := token_not_foreign op
      have hclass : op.token ≠ .keyword .kClass := fun h => hforeign (by rw [h]; decide)
      have hdef : op.token ≠ .keyword .kDef := fun h => hforeign (by rw [h]; decide)
      refine Prompt.congr (Q := fun m => Parser.skip >>= fun _ => P m >>= fun right =>
        operands (joinOf op.rank) (P m) (m - (i + 1)) (joined op.node l right)) ?_ fun t m hm ht => ?_
      · refine Prompt.skip hop.symm hne (h.bind (by omega) (by omega) (hat.took hone)
          (hclean.fresh_concat hclass hdef (by rcases op with ⟨⟨⟩⟩ | ⟨⟨⟩⟩ <;> simp [BinOp.token]))
          (fun v hv => ?_) fun right w s' ht hw cool => ?_)
        · obtain ⟨n, hn⟩ := hu
          obtain ⟨n', hn'⟩ := hv
          exact ⟨[], _, by simpa using hn.concat_op op hn'⟩
        · have htext := hone.trans ht
          have hlen' := htext.length
          rw [List.length_append, List.length_singleton] at hlen'
          have hsum : IsExpr unit known op.rank (u ++ op.token :: w) := by
            obtain ⟨n, hn⟩ := hu
            obtain ⟨n', hn'⟩ := hw
            exact ⟨_, hn.concat_op op hn'⟩
          have := ih _ (by omega) (b := b + 1 + w.length) (i := i + 1) (by omega) (by omega)
            (by omega) (hat.took htext) hsum ((hclean.concat hclass hdef).append_expr hw) cool
            (joined op.node l right) rfl
          simpa using this
      · have hlt : 1 ≤ t.rest.length := ht.length_le le_rfl (by omega)
        obtain ⟨j, hj'⟩ : ∃ j, m - i = j + 1 := ⟨m - i - 1, by omega⟩
        rw [Nat.sub_add_eq, hj', Nat.add_sub_cancel]
        conv_lhs => unfold operands
        rw [bind_of_ok (peek_run t), ht.next (by omega), hj]

theorem leftAssoc_reader {r : Rank} {P : Nat → Parser Node}
    (h : Reader c N unit known Fresh (IsExpr unit known r.next) P)
    (hs : ∀ m, SoundAt (P m) r.next) :
    Reader c N unit known Fresh (IsExpr unit known r) fun m => leftAssoc (joinOf r) (P m) m where
  prompt past s hN hat hok := by
    refine h.bind le_rfl hN hat hok (fun u hu => ⟨[], ?_⟩) fun l w s' ht hw cool => ?_
    · rw [List.append_nil]
      exact hu.loosen r.tightness_le_next
    · have hlen := ht.length
      exact operands_prompt h (i := 0) (by omega) (Nat.zero_le _) (by omega) (hat.took ht)
        (hw.loosen r.tightness_le_next) (hok.2.append_expr hw) cool l
  takes m s n s' h := by
    obtain ⟨w, ht, hw⟩ := leftAssoc_sound (hs m) m s n s' h
    exact ⟨w, ht, by rintro rfl rfl; exact ⟨_, hw⟩⟩

/-! ### Names -/

/-- The names behind the first of a dotted name, at most `n`. A name has to follow each dot. -/
def strictNames : Nat → Parser (List String)
  | 0 => return []
  | n + 1 => do
    if ← accept (.char '.') then
      let x ← expectName
      return x :: (← strictNames n)
    else
      return []

section

variable (bound : Nat) (inner : Level → Parser Node)

/-- A primary that begins with the name `x`. A name has to follow each of its dots. -/
def named (x : String) : Parser Node := do
  let start := (← peek).span
  skip
  if ← nextIs (.char '(') then
    callByName bound inner x start
  else
    let xs ← strictNames bound
    if 0 < xs.length && (← nextIs (.char '(')) then
      let object := Node.lookup (← spanFrom start) (x :: xs).dropLast
      let args ← arguments bound inner
      return .call (← spanFrom start) object ((x :: xs).getLastD "") args
    else
      return .lookup (← spanFrom start) (x :: xs)

end

/-- The names up to a dot that no name follows, and what a stricter reader says to this dot. -/
theorem moreNames_cases {m : Nat} {t : Reading} (hm : t.rest.length ≤ m) :
    ∃ xs t', moreNames m t = .ok (xs, t') ∧
      (t'.next.kind ≠ .char '.' ∧ strictNames m t = .ok (xs, t') ∨
        t'.next.kind = .char '.' ∧ ∃ e, expectName t'.advance = .error e ∧ strictNames m t = .error e) := by
  induction m generalizing t with
  | zero =>
    have hnil : t.kinds = [] := List.eq_nil_of_length_eq_zero (by rw [Reading.length_kinds]; omega)
    refine ⟨[], t, rfl, .inl ⟨?_, rfl⟩⟩
    rw [headD_next hnil]
    simp
  | succ m ih =>
    by_cases hd : t.next.kind = .char '.'
    · by_cases hname : ∃ x, t.advance.next.kind = .name x
      · obtain ⟨x, hx⟩ := hname
        have ht := Reading.Took.cons hd (by simp) (.advance hx (by simp))
        have hlen := ht.length
        simp only [List.length_cons, List.length_nil] at hlen
        obtain ⟨xs, t', hmore, hcases⟩ := ih (t := t.advance.advance) (by omega)
        have hstrict : strictNames (m + 1) t =
            (strictNames m >>= fun xs => pure (x :: xs) : Parser _) t.advance.advance := by
          rw [strictNames, bind_of_ok (accept_of_next hd), if_pos rfl,
            bind_of_ok (expectName_of_next hx)]
        refine ⟨x :: xs, t', ?_, ?_⟩
        · rw [moreNames, bind_of_ok (nextIs_run _ t), decide_eq_true hd, if_pos rfl,
            bind_of_ok (peekSecond_run t), Reading.ahead_one, hx]
          dsimp only
          rw [bind_of_ok (skip_run t), bind_of_ok (skip_run _), bind_of_ok hmore]
          rfl
        · rw [hstrict]
          obtain ⟨hne, hs⟩ | ⟨hdot, e, he, hs⟩ := hcases
          · exact .inl ⟨hne, bind_of_ok hs⟩
          · exact .inr ⟨hdot, e, he, bind_of_error hs⟩
      · have hfail := expectName_of_ne fun x hx => hname ⟨x, hx⟩
        refine ⟨[], t, ?_, .inr ⟨hd, _, hfail, ?_⟩⟩
        · rw [moreNames, bind_of_ok (nextIs_run _ t), decide_eq_true hd, if_pos rfl,
            bind_of_ok (peekSecond_run t), Reading.ahead_one]
          cases hk : t.advance.next.kind with
          | name x => exact absurd ⟨x, hk⟩ hname
          | _ => rfl
        · rw [strictNames, bind_of_ok (accept_of_next hd), if_pos rfl, bind_of_error hfail]
    · refine ⟨[], t, ?_, .inl ⟨hd, ?_⟩⟩
      · rw [moreNames, bind_of_ok (nextIs_run _ t), decide_eq_false hd, if_neg (by simp)]
        rfl
      · rw [strictNames, bind_of_ok (accept_of_ne hd), if_neg (by simp)]
        rfl

theorem strictNames_took {m : Nat} {t t' : Reading} (hm : t.rest.length ≤ m) {xs : List String}
    (h : strictNames m t = .ok (xs, t')) :
    t.Took (xs.flatMap fun x => [.char '.', .name x]) t' := by
  obtain ⟨ys, u, hmore, ⟨-, hs⟩ | ⟨-, e, -, hs⟩⟩ := moreNames_cases hm
  · rw [h] at hs
    cases hs
    exact moreNames_sound m hmore
  · rw [h] at hs
    cases hs

section

variable {bound : Nat} {inner : Level → Parser Node}

theorem primary_of_constant {t : Reading} {v : Literal}
    (hv : Constant t.next.kind v) :
    primary bound inner t = (do skip; return .literal t.next.span v : Parser Node) t := by
  unfold primary
  rw [bind_of_ok (peek_run t)]
  generalize t.next = k at hv ⊢
  obtain ⟨k, span⟩ := k
  cases hv <;> rfl

theorem primary_of_bracket {t : Reading}
    (hk : t.next.kind = .char '(') :
    primary bound inner t =
      (do skip; let e ← inner .test; expect (.char ')'); return e : Parser Node) t := by
  unfold primary
  rw [bind_of_ok (peek_run t), hk]
  rfl

set_option linter.auxLemma false in
theorem primary_of_none {t : Reading}
    (hname : ∀ x, t.next.kind ≠ .name x) (hv : ∀ v, ¬ Constant t.next.kind v)
    (hk : t.next.kind ≠ .char '(') :
    primary bound inner t = unexpected "expression" t.next t := by
  unfold primary
  rw [bind_of_ok (peek_run t)]
  generalize t.next = k at hname hv hk ⊢
  obtain ⟨k, span⟩ := k
  cases k with
  | name x => exact absurd rfl (hname x)
  | number i => exact absurd (.number i) (hv _)
  | string x => exact absurd (.string x) (hv _)
  | keyword k =>
    cases k with
    | kTrue => exact absurd .true (hv _)
    | kFalse => exact absurd .false (hv _)
    | kNone => exact absurd .none (hv _)
    | _ => rfl
  | char c =>
    -- `split` has no equations for a match that mixes characters with numbers.
    delta primary.match_1
    change (dite (c = '(') _ fun _ => unexpected "expression" _ : Parser Node) t = _
    rw [dif_neg fun h => hk (by rw [h])]
  | _ => rfl

/-- A name that no parenthesis follows is entered as a dotted name. -/
theorem primary_of_dotted {x : String} {t : Reading} (hx : t.next.kind = .name x)
    (hk : t.advance.next.kind ≠ .char '(') : primary bound inner t = dottedValue bound inner t := by
  unfold primary
  rw [bind_of_ok (peek_run t), hx]
  dsimp only
  rw [bind_of_ok (peekSecond_run t), Reading.ahead_one, if_neg hk]

/-- Where a primary that begins with a name is not read as it should be, no method call follows it. -/
theorem named_cases {x : String} {t : Reading} (hx : t.next.kind = .name x)
    (hm : t.rest.length ≤ bound) :
    named bound inner x t = primary bound inner t ∨
      ∃ e, named bound inner x t = .error e ∧
        (primary bound inner >>= methodCalls bound inner bound) t = .error e := by
  have hkinds := Reading.kinds_of_next_kind hx (by simp)
  have hpos := Reading.rest_length_pos (s := t) (by rw [hx]; simp)
  unfold named
  rw [bind_of_ok (peek_run t), bind_of_ok (skip_run t), bind_of_ok (nextIs_run _ t.advance)]
  by_cases hcall : t.advance.next.kind = .char '('
  · left
    rw [Reading.kinds_of_next_kind hcall (by simp)] at hkinds
    rw [decide_eq_true hcall, if_pos rfl, primary_of_name hkinds]
  · have hlen := (Reading.Took.advance hx (by simp)).length
    rw [List.length_singleton] at hlen
    obtain ⟨xs, t', hmore, hcases⟩ := moreNames_cases (m := bound) (t := t.advance) (by omega)
    have hdotted : dottedName bound t = .ok (x :: xs, t') := by
      rw [dottedName, bind_of_ok (expectName_of_next hx), bind_of_ok hmore]
      rfl
    rw [decide_eq_false hcall, if_neg (by simp), primary_of_dotted hx hcall]
    obtain ⟨hne, hs⟩ | ⟨hdot, e, he, hs⟩ := hcases
    · left
      have hlong : decide (1 < (x :: xs).length) = decide (0 < xs.length) := by
        rw [List.length_cons, decide_eq_decide]
        omega
      rw [bind_of_ok hs, dottedValue, bind_of_ok (peek_run t), bind_of_ok hdotted, hlong]
    · right
      obtain ⟨m, rfl⟩ : ∃ m, bound = m + 1 := ⟨bound - 1, by omega⟩
      have hbracket : t'.next.kind ≠ .char '(' := by
        rw [hdot]
        decide
      have hvalue : dottedValue (m + 1) inner t =
          .ok (.lookup (t.next.span.merge t'.last) (x :: xs), t') := by
        rw [dottedValue, bind_of_ok (peek_run t), bind_of_ok hdotted, bind_of_ok (nextIs_run _ t'),
          decide_eq_false hbracket, Bool.and_false, if_neg (by simp)]
        rfl
      refine ⟨e, bind_of_error hs, ?_⟩
      rw [bind_of_ok ((primary_of_dotted hx hcall).trans hvalue), methodCalls,
        bind_of_ok (accept_of_next hdot), if_pos rfl, bind_of_error he]

theorem named_methodCalls {x : String} {t : Reading} (hx : t.next.kind = .name x)
    (hm : t.rest.length ≤ bound) :
    (named bound inner x >>= methodCalls bound inner bound) t =
      (primary bound inner >>= methodCalls bound inner bound) t := by
  obtain h | ⟨e, h, h'⟩ := named_cases hx hm
  · cases hp : primary bound inner t with
    | error e => rw [bind_of_error hp, bind_of_error (h.trans hp)]
    | ok r => rw [bind_of_ok hp, bind_of_ok (h.trans hp)]
  · rw [h', bind_of_error h]

end

/-! ### Primaries -/

theorem strictNames_prompt {i : Nat} (hi : i ≤ c) (hclean : Clean past)
    (cool : Cool past s.next.kind) :
    Prompt c past s (fun v => ∃ xs : List String, v = xs.flatMap fun x => [.char '.', .name x])
      fun m => strictNames (m - i) := by
  induction hn : s.rest.length using Nat.strong_induction_on generalizing past s c i with
  | _ n ih =>
    subst hn
    by_cases hd : s.next.kind = .char '.'
    · have hpos := Reading.rest_length_pos (s := s) (by rw [hd]; simp)
      refine Prompt.congr (Q := fun m => Parser.skip >>= fun _ => Parser.expectName >>= fun x =>
        strictNames (m - (i + 1)) >>= fun xs => Pure.pure (x :: xs)) ?_ fun t m hm ht => ?_
      · refine Prompt.skip hd (by simp) (Prompt.expectName (cool_concat (by simp) _)
          ⟨"", [], [""], rfl⟩ fun x hx => ?_)
        have hlen := (Reading.Took.cons hd (by simp) (.advance hx (by simp))).length
        simp only [List.length_cons, List.length_nil] at hlen
        have hdot : Clean (past ++ [.char '.']) := hclean.concat (by simp) (by simp)
        refine Prompt.bind (ih _ (by omega) (by omega) (hdot.concat (by simp) (by simp))
          (cool_name (fun h => h.1 List.getLast?_concat) (by simp) x _) rfl) ?_
          fun xs w s' _ _ cool => Prompt.pure cool
        rintro u ⟨xs, rfl⟩
        exact ⟨[], x :: xs, by simp⟩
      · have hlt : 1 ≤ t.rest.length := ht.length_le le_rfl (by omega)
        obtain ⟨j, hj⟩ : ∃ j, m - i = j + 1 := ⟨m - i - 1, by omega⟩
        have hdot : t.next.kind = .char '.' := by rw [ht.next (by omega), hd]
        rw [Nat.sub_add_eq, hj, Nat.add_sub_cancel, strictNames, bind_of_ok (accept_of_next hdot),
          if_pos rfl]
        rfl
    · refine Prompt.done (a := []) (fun t m ht => ?_) cool
      cases m - i with
      | zero => rfl
      | succ m =>
        rw [strictNames, bind_of_ok (accept_of_ne (by rwa [ht.next (by omega)])), if_neg (by simp)]
        rfl

section

variable {E : Nat → Level → Parser Node}
  (h : ∀ l, Reader 1 N unit known Fresh (IsExpr unit known l.rank) fun m => E m l)
include h

theorem arguments_reader :
    Reader 1 (N + 1) unit known Clean (Parens (IsExpr unit known .disjunction))
      fun m => arguments m (E m) :=
  parenthesized_reader (h .test) (items_isExpr unit known)
    fun _ hpast => hpast.fresh_concat (by simp) (by simp) (by simp)

/-- A name with a parenthesis behind it, which is that of a class, is `str`, or is wrong. -/
theorem callByName_prompt {x : String} (hc : 1 ≤ c) (hN : s.rest.length ≤ N + 1)
    (hat : s.At unit known) (hfresh : Fresh past) (hnext : s.next.kind = .char '(') :
    Prompt c (past ++ [.name x]) s (fun v => IsExpr unit known .primary (.name x :: v))
      fun m => callByName m (E m) x s.last := by
  have hclean : Clean (past ++ [.name x]) := hfresh.2.concat (by simp) (by simp)
  by_cases hd : s.declares x = true
  · refine Prompt.congr (Q := fun m => arguments m (E m) >>= fun args => Parser.spanFrom s.last >>=
      fun span => (get >>= fun r => Pure.pure (Node.new span ⟨r.unit, x⟩ args) : Parser Node)) ?_
      fun t m hm ht => ?_
    · have hknown : x ∈ known := by
        rw [← hat.known]
        exact hd
      refine (arguments_reader h).bind hc hN hat hclean (fun u hu => ?_)
        fun args w s' _ _ cool => ?_
      · obtain ⟨ns, hns⟩ := exists_args hu
        exact ⟨[], _, by simpa using Spells.new hknown hns⟩
      · refine Prompt.spanFrom (Prompt.done (a := .new (s.last.merge s'.last) ⟨s'.unit, x⟩ args)
          (fun t m ht => ?_) cool)
        rw [← ht.unit]
        rfl
    · show (if t.declares x then _ else _ : Parser Node) t = _
      rw [if_pos (by rw [ht.declares, hd])]
  · have hnot : ∀ t, s.Agrees 1 t → ¬ t.declares x = true := fun t ht => by rwa [ht.declares]
    by_cases hstr : x = "str"
    · subst hstr
      have hfree : "str" ∉ known := by
        rw [← hat.known]
        exact hd
      refine Prompt.congr (Q := fun m => Parser.expect (.char '(') >>= fun _ => E m .test >>= fun arg =>
        Parser.expect (.char ')') >>= fun _ => Parser.spanFrom s.last >>= fun span =>
          Pure.pure (.stringify span arg)) ?_ fun t m hm ht => ?_
      · obtain ⟨n, hn⟩ := isExpr_number unit known .disjunction
        refine Prompt.expect (by simp) (fun hne => absurd hnext hne) ⟨_, _, .str hfree hn⟩ fun hopen => ?_
        have hone := Reading.Took.advance hopen (by simp)
        have hlen := hone.length
        rw [List.length_singleton] at hlen
        refine (h .test).bind (by omega) (by omega) (hat.took hone)
          (hclean.fresh_concat (by simp) (by simp) (by simp)) ?_ fun arg w s' _ hw cool => ?_
        · rintro u ⟨n, hn⟩
          exact ⟨[.char ')'], _, .str hfree hn⟩
        · obtain ⟨n, hn⟩ := hw
          exact Prompt.expect (by simp) (fun _ => cool) ⟨[], _, .str hfree hn⟩ fun _ =>
            Prompt.spanFrom (Prompt.pure (cool_concat (by simp) _))
      · show (if t.declares "str" then _ else _ : Parser Node) t = _
        rw [if_neg (hnot t ht), if_pos rfl]
    · have hlookup : IsExpr unit known .primary (pathText [x]) := ⟨_, .lookup (List.cons_ne_nil x [])⟩
      refine Prompt.fail (.call ⟨past, rfl, hfresh⟩ hnext rfl) ⟨[], hlookup⟩ fun t m ht => ?_
      show (if t.declares x then _ else _ : Parser Node) t = _
      rw [if_neg (hnot t ht), if_neg hstr]
      rfl

/-- A dotted name, or a method call on one. -/
theorem named_prompt {x : String} (hN : s.rest.length ≤ N + 1) (hat : s.At unit known)
    (hfresh : Fresh past) (hx : s.next.kind = .name x) :
    Prompt c past s (IsExpr unit known .primary) fun m => named m (E m) x := by
  have hone := Reading.Took.advance hx (by simp)
  have hlen := hone.length
  rw [List.length_singleton] at hlen
  have hclean : Clean (past ++ [.name x]) := hfresh.2.concat (by simp) (by simp)
  have hlookup : ∀ xs : List String, IsExpr unit known .primary
      (.name x :: xs.flatMap fun y => [.char '.', .name y]) := by
    intro xs
    rw [← pathText_cons]
    exact ⟨_, .lookup (List.cons_ne_nil x xs)⟩
  unfold named
  refine Prompt.peek (Prompt.skip hx (by simp) (Prompt.nextIs ?_))
  rw [← Reading.last_advance (s := s) (by rw [hx]; simp)]
  by_cases hcall : s.advance.next.kind = .char '('
  · simp only [hcall, decide_true, if_true]
    exact callByName_prompt h (by omega) (by omega) (hat.took hone) hfresh hcall
  · simp only [hcall, decide_false, Bool.false_eq_true, if_false]
    refine Prompt.bind (strictNames_prompt (i := 0) (Nat.zero_le _) hclean (cool_of_ne hcall)) ?_
      fun xs w s' hp hrun cool => ?_
    · rintro u ⟨xs, rfl⟩
      exact ⟨[], by simpa using hlookup xs⟩
    have ht := strictNames_took (Nat.le_add_right _ _) (hrun _ le_rfl)
    obtain rfl := List.append_cancel_right (hp.text.symm.trans ht.text)
    refine Prompt.nextIs ?_
    split
    · rename_i hmore
      rw [Bool.and_eq_true, decide_eq_true_iff, decide_eq_true_iff] at hmore
      have hpath : (x :: xs).dropLast ≠ [] := by
        rw [← List.length_pos_iff, List.length_dropLast, List.length_cons]
        omega
      have hcalls : ∀ {u}, Parens (IsExpr unit known .disjunction) u → IsExpr unit known .primary
          (.name x :: ((xs.flatMap fun y => [.char '.', .name y]) ++ u)) := by
        intro u hu
        obtain ⟨ns, hns⟩ := exists_args hu
        have := Spells.dottedCall (m := (x :: xs).getLastD "") hpath hns
        rw [dropLast_concat_getLastD (List.cons_ne_nil x xs), pathText_cons] at this
        exact ⟨_, this⟩
      have hlen' := ht.length
      refine Prompt.spanFrom ((arguments_reader h).bind (by omega) (by omega) ((hat.took hone).took ht)
        ?_ (fun u hu => ⟨[], by simpa using hcalls hu⟩) fun args v s'' _ _ cool => ?_)
      · refine hclean.append ?_ ?_ <;> simp
      · exact Prompt.spanFrom (Prompt.pure cool)
    · exact Prompt.spanFrom (Prompt.pure cool)

/-! ### Chains -/

theorem methodCalls_prompt {i : Nat} (hc : 1 ≤ c) (hi : i ≤ c) (hN : s.rest.length ≤ N)
    (hat : s.At unit known) {u : List TokenKind} (hu : IsExpr unit known .chain u)
    (hclean : Clean past) (cool : Cool past s.next.kind) (o : Node) :
    Prompt c past s (fun v => IsExpr unit known .chain (u ++ v))
      fun m => methodCalls m (E m) (m - i) o := by
  induction hn : s.rest.length using Nat.strong_induction_on generalizing past s c i u o with
  | _ n ih =>
    subst hn
    by_cases hd : s.next.kind = .char '.'
    · have hpos := Reading.rest_length_pos (s := s) (by rw [hd]; simp)
      have hcalls : ∀ {x v}, Parens (IsExpr unit known .disjunction) v →
          IsExpr unit known .chain (u ++ .char '.' :: .name x :: v) := by
        intro x v hv
        obtain ⟨n, hn⟩ := hu
        obtain ⟨ns, hns⟩ := exists_args hv
        exact ⟨_, hn.concat_call hns⟩
      have hdot : Clean (past ++ [.char '.']) := hclean.concat (by simp) (by simp)
      refine Prompt.congr (Q := fun m => Parser.skip >>= fun _ => Parser.expectName >>= fun x =>
        arguments m (E m) >>= fun args => Parser.spanFrom o.span >>= fun span =>
          methodCalls m (E m) (m - (i + 1)) (.call span o x args)) ?_ fun t m hm ht => ?_
      · refine Prompt.skip hd (by simp) (Prompt.expectName (cool_concat (by simp) _)
          ⟨"", _, hcalls ⟨[], by simp, rfl⟩⟩ fun x hx => ?_)
        have hname := Reading.Took.cons hd (by simp) (.advance hx (by simp))
        have hlen := hname.length
        simp only [List.length_cons, List.length_nil] at hlen
        refine (arguments_reader h).bind (by omega) (by omega) (hat.took hname)
          (hdot.concat (by simp) (by simp)) (fun v hv => ⟨[], by simpa using hcalls hv⟩)
          fun args w s' ht hw cool => Prompt.spanFrom ?_
        have htext := hname.trans ht
        have hlen' := htext.length
        simp only [List.length_append, List.length_cons, List.length_nil] at hlen'
        obtain ⟨ns, hns⟩ := exists_args hw
        have hpast : Clean (past ++ [.char '.'] ++ [.name x] ++ w) :=
          (hdot.concat (by simp) (by simp)).append (hns.foreign_not_mem (by decide))
            (hns.foreign_not_mem (by decide))
        have := ih _ (by omega) (c := c + 1 + 1 + w.length) (i := i + 1) (by omega) (by omega)
          (by omega) (hat.took htext) (hcalls (x := x) hw) hpast cool
          (.call (o.span.merge s'.last) o x args) rfl
        simpa using this
      · have hlt : 1 ≤ t.rest.length := ht.length_le le_rfl (by omega)
        obtain ⟨j, hj⟩ : ∃ j, m - i = j + 1 := ⟨m - i - 1, by omega⟩
        have hdot : t.next.kind = .char '.' := by rw [ht.next (by omega), hd]
        rw [Nat.sub_add_eq, hj, Nat.add_sub_cancel, methodCalls, bind_of_ok (accept_of_next hdot),
          if_pos rfl]
        rfl
    · refine Prompt.done (a := o) (fun t m ht => ?_) cool
      cases m - i with
      | zero => rfl
      | succ m =>
        rw [methodCalls, bind_of_ok (accept_of_ne (by rwa [ht.next (by omega)])), if_neg (by simp)]
        rfl

/-- A primary is read promptly with the method calls behind it. -/
theorem primary_prompt (hN : s.rest.length ≤ N + 1) (hat : s.At unit known) (hfresh : Fresh past) :
    ∃ P : Nat → Parser Node, Prompt 0 past s (IsExpr unit known .primary) P ∧
      (∀ m n s', s.rest.length ≤ m → P m s = .ok (n, s') → primary m (E m) s = .ok (n, s')) ∧
      ∀ t m, t.rest.length ≤ m → s.Agrees 1 t →
        (primary m (E m) >>= methodCalls m (E m) m) t = (P m >>= methodCalls m (E m) m) t := by
  by_cases hname : ∃ x, s.next.kind = .name x
  · obtain ⟨x, hx⟩ := hname
    refine ⟨fun m => named m (E m) x, named_prompt h hN hat hfresh hx, fun m n s' hm hs => ?_,
      fun t m hm ht => ?_⟩
    · obtain hn | ⟨e, hn, -⟩ := named_cases hx hm
      · exact hn.symm.trans hs
      · cases hs.symm.trans hn
    · rw [named_methodCalls (by rw [ht.next (by omega), hx]) hm]
  · refine ⟨fun m => primary m (E m), ?_, fun _ _ _ _ hs => hs, fun _ _ _ _ => rfl⟩
    by_cases hconst : ∃ v, Constant s.next.kind v
    · obtain ⟨v, hv⟩ := hconst
      refine Prompt.congr (Q := fun _ => Parser.skip >>= fun _ => Pure.pure (.literal s.next.span v)) ?_
        fun t m _ ht => ?_
      · have hne : s.next.kind ≠ .eof := fun he => by
          rw [he] at hv
          cases hv
        refine Prompt.skip rfl hne (Prompt.pure (cool_concat (fun y hy => ?_) _))
        exact absurd ⟨y, hy⟩ hname
      · rw [← ht.next (by omega)] at hv ⊢
        exact primary_of_constant hv
    · by_cases hbracket : s.next.kind = .char '('
      · refine Prompt.congr (Q := fun m => Parser.skip >>= fun _ => E m .test >>= fun e =>
          Parser.expect (.char ')') >>= fun _ => Pure.pure e) ?_
          fun t m _ ht => primary_of_bracket (by rw [ht.next (by omega), hbracket])
        have hone := Reading.Took.advance hbracket (by simp)
        have hlen := hone.length
        rw [List.length_singleton] at hlen
        refine Prompt.skip hbracket (by simp) ((h .test).bind (by omega) (by omega) (hat.took hone)
          (hfresh.2.fresh_concat (by simp) (by simp) (by simp)) ?_ fun e w s' _ hw cool => ?_)
        · rintro u ⟨n, hn⟩
          exact ⟨[.char ')'], _, .paren hn⟩
        · obtain ⟨n, hn⟩ := hw
          exact Prompt.expect (by simp) (fun _ => cool) ⟨[], _, .paren hn⟩ fun _ =>
            Prompt.pure (cool_concat (by simp) _)
      · refine Prompt.fail (e := ⟨.unexpectedToken "expression" s.next.kind.text, s.next.span⟩)
          (.here rfl (cool_of_ne hbracket)) ⟨_, isExpr_number _ _ _⟩ fun t m ht => ?_
        rw [← ht.next (by omega)] at hname hconst hbracket ⊢
        exact primary_of_none (fun x hx => hname ⟨x, hx⟩) (fun v hv => hconst ⟨v, hv⟩) hbracket

variable (hs : ∀ m l, SoundAt (E m l) l.rank)
include hs

theorem chain_reader : Reader 0 (N + 1) unit known Fresh (IsExpr unit known .chain)
    fun m => primary m (E m) >>= methodCalls m (E m) m where
  prompt past s hN hat hfresh := by
    obtain ⟨P, hP, htakes, hrun⟩ := primary_prompt h hN hat hfresh
    refine Prompt.congr (Q := fun m => P m >>= methodCalls m (E m) m) ?_ hrun
    refine hP.bind (fun u hu => ⟨[], ?_⟩) fun o w s' hp hok cool => ?_
    · rw [List.append_nil]
      exact hu.loosen (by decide)
    · obtain ⟨v, ht, hsp⟩ := primary_sound (hs s.rest.length) s o s'
        (htakes _ _ _ le_rfl (hok _ le_rfl))
      obtain rfl := List.append_cancel_right (hp.text.symm.trans ht.text)
      have hw : IsExpr unit known .primary w := by
        rw [hat.unit, hat.known] at hsp
        exact ⟨_, hsp⟩
      have hlen := ht.length
      have hpos : 0 < w.length := hsp.length_pos
      exact methodCalls_prompt h (i := 0) (by omega) (Nat.zero_le _) (by omega) (hat.took ht)
        (hw.loosen (by decide)) (hfresh.2.append_expr hw) cool o
  takes m s n s' hok := by
    obtain ⟨w, ht, hw⟩ := chain_sound (hs m) s n s' hok
    exact ⟨w, ht, by rintro rfl rfl; exact ⟨_, hw⟩⟩

/-! ### The ranks -/

theorem signed_reader : Reader 0 (N + 1) unit known Fresh (IsExpr unit known .signed)
    fun m => signed m (E m) where
  prompt past s hN hat hfresh := by
    refine Prompt.peek (Prompt.accept (by simp) (fun hminus => ?_) fun _ => ?_)
    · have hone := Reading.Took.advance hminus (by simp)
      have hlen := hone.length
      rw [List.length_singleton] at hlen
      refine (h .signed).bind (by omega) (by omega) (hat.took hone)
        (hfresh.2.fresh_concat (by simp) (by simp) (by simp)) ?_ fun _ _ _ _ _ cool => Prompt.pure cool
      rintro u ⟨n, hn⟩
      exact ⟨[], _, by simpa using Spells.minus hn⟩
    · exact ((chain_reader h hs).prompt past s hN hat hfresh).weaken fun u hu =>
        ⟨[], by simpa using hu.loosen (r := .signed) (by decide)⟩
  takes m s n s' hok := by
    obtain ⟨w, ht, hw⟩ := signed_sound (hs m) s n s' hok
    exact ⟨w, ht, by rintro rfl rfl; exact ⟨_, hw⟩⟩

theorem sum_reader : Reader 0 (N + 1) unit known Fresh (IsExpr unit known .sum)
    fun m => sum m (E m) :=
  leftAssoc_reader (r := .sum)
    (leftAssoc_reader (r := .product) (signed_reader h hs) fun m => signed_sound (hs m))
    fun m => product_sound (hs m)

theorem comparison_reader : Reader 0 (N + 1) unit known Fresh (IsExpr unit known .comparison)
    fun m => comparison m (E m) where
  prompt past s hN hat hfresh := by
    refine (sum_reader h hs).bind le_rfl hN hat hfresh (fun u hu => ⟨[], ?_⟩)
      fun l w s' ht hw cool => Prompt.peek ?_
    · rw [List.append_nil]
      exact hu.loosen (by decide)
    · cases hop : comparator? s'.next.kind with
      | none => exact Prompt.pure cool
      | some op =>
        have hkind := comparator?_eq_some hop
        have hne : comparatorToken op ≠ .eof := by cases op <;> simp [comparatorToken]
        have hforeign := comparatorToken_not_foreign op
        have hone := ht.concat hkind.symm hne
        have hlen := hone.length
        rw [List.length_append, List.length_singleton] at hlen
        refine Prompt.skip hkind.symm hne ((sum_reader h hs).bind (Nat.zero_le _) (by omega)
          (hat.took hone) ((hfresh.2.append_expr hw).fresh_concat (fun h => hforeign (by rw [h]; decide))
            (fun h => hforeign (by rw [h]; decide)) (by cases op <;> simp [comparatorToken]))
          ?_ fun _ _ _ _ _ cool => Prompt.pure cool)
        rintro u ⟨n, hn⟩
        obtain ⟨n', hn'⟩ := hw
        exact ⟨[], _, by simpa using Spells.compare op hn' hn⟩
  takes m s n s' hok := by
    obtain ⟨w, ht, hw⟩ := comparison_sound (hs m) s n s' hok
    exact ⟨w, ht, by rintro rfl rfl; exact ⟨_, hw⟩⟩

theorem negation_reader : Reader 0 (N + 1) unit known Fresh (IsExpr unit known .negation)
    fun m => negation m (E m) where
  prompt past s hN hat hfresh := by
    refine Prompt.peek (Prompt.accept (by simp) (fun hnot => ?_) fun _ => ?_)
    · have hone := Reading.Took.advance hnot (by simp)
      have hlen := hone.length
      rw [List.length_singleton] at hlen
      refine (h .negation).bind (by omega) (by omega) (hat.took hone)
        (hfresh.2.fresh_concat (by simp) (by simp) (by simp)) ?_ fun _ _ _ _ _ cool => Prompt.pure cool
      rintro u ⟨n, hn⟩
      exact ⟨[], _, by simpa using Spells.not hn⟩
    · exact ((comparison_reader h hs).prompt past s hN hat hfresh).weaken fun u hu =>
        ⟨[], by simpa using hu.loosen (r := .negation) (by decide)⟩
  takes m s n s' hok := by
    obtain ⟨w, ht, hw⟩ := negation_sound (hs m) s n s' hok
    exact ⟨w, ht, by rintro rfl rfl; exact ⟨_, hw⟩⟩

theorem disjunction_reader : Reader 0 (N + 1) unit known Fresh (IsExpr unit known .disjunction)
    fun m => disjunction m (E m) :=
  leftAssoc_reader (r := .disjunction)
    (leftAssoc_reader (r := .conjunction) (negation_reader h hs) fun m => negation_sound (hs m))
    fun m => conjunction_sound (hs m)

theorem atLevel_reader (l : Level) : Reader 0 (N + 1) unit known Fresh (IsExpr unit known l.rank)
    fun m => atLevel m (E m) l := by
  cases l with
  | test => exact disjunction_reader h hs
  | negation => exact negation_reader h hs
  | signed => exact signed_reader h hs

end

/-! ### All expressions -/

/-- No expression begins at the end. -/
theorem expression_of_end (m : Nat) (l : Level) {t : Reading} (ht : t.rest = []) :
    expression m l t = .error ⟨.unexpectedToken "expression" "EOF", t.final⟩ := by
  obtain ⟨u, p, r, f, d⟩ := t
  obtain rfl : r = [] := ht
  cases m with
  | zero => rfl
  | succ m => cases l <;> rfl

theorem expression_reader (N : Nat) (unit : Nat) (known : Set String) (l : Level) :
    Reader 0 N unit known Fresh (IsExpr unit known l.rank) fun m => expression m l := by
  have htakes : ∀ l m, Sound (expression m l) fun u k _ w =>
      u = unit → k = known → IsExpr unit known l.rank w := by
    intro l m s n s' hok
    obtain ⟨w, ht, hw⟩ := expression_sound m l s n s' hok
    exact ⟨w, ht, by rintro rfl rfl; exact ⟨_, hw⟩⟩
  have hend : ∀ l past s, s.rest = [] →
      Prompt 0 past s (IsExpr unit known l.rank) fun m => expression m l := fun l _ _ hs =>
    Prompt.ended hs ⟨_, isExpr_number _ _ _⟩ fun _ m ht => expression_of_end m l ht
  induction N generalizing l with
  | zero =>
    exact ⟨fun past s hN _ _ => hend l past s (List.eq_nil_of_length_eq_zero (by omega)), htakes l⟩
  | succ N ih =>
    have inner : ∀ l, Reader 1 N unit known Fresh (IsExpr unit known l.rank)
        fun m => expression (m - 1) l := fun l =>
      ⟨fun past s hN hat hok => ((ih l).prompt past s hN hat hok).pred, fun m => htakes l (m - 1)⟩
    refine ⟨fun past s hN hat hok => ?_, htakes l⟩
    by_cases hs : s.rest = []
    · exact hend l past s hs
    · have hpos := List.length_pos_iff.2 hs
      refine ((atLevel_reader inner (fun m l => expression_sound (m - 1) l) l).prompt past s hN hat
        hok).congr fun t m hm ht => ?_
      have hlt : 1 ≤ t.rest.length := ht.length_le le_rfl hpos
      obtain ⟨j, rfl⟩ : ∃ j, m = j + 1 := ⟨m - 1, by omega⟩
      rfl

end Parser

end ClassScript

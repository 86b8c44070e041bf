import ClassScript.Proofs.IndexedReading

/-!
# Expressions by index

The loops over names, lists and operators end with the tokens, since behind each item one token at least is taken;
so they do what the bounded ones do, and the levels of expressions follow one another by induction on the tokens
left.  Main statement: `follows_expression`.
-/

namespace ClassScript

namespace Indexed

open TokenList

variable {α : Type} {L : Listing} {c : Position} {s : Reading} {keep : Prop} {k n : Nat}

theorem next_of_length (h : s.rest.length ≤ 0) : s.next.kind = .eof := by
  rw [Reading.next, Reading.ahead, List.length_eq_zero_iff.1 (Nat.le_zero.1 h)]
  rfl

/-! ### Names -/

theorem next_advance (s : Reading) : s.advance.next = s.ahead 1 := by
  unfold Reading.next Reading.ahead Reading.advance
  cases hrest : s.rest with
  | nil => rw [hrest]; rfl
  | cons t rest => rfl

/-- A dotted name ends where no dot is next. -/
theorem Meets.moreNames_stops (h : Meets L c s) (hdot : s.next.kind ≠ .char '.') (b : Nat) :
    Outcome L keep 0 c s (L.list.moreNames c) (Parser.moreNames b s) := by
  have hmodel : Parser.moreNames b s = .ok ([], s) := by
    cases b with
    | zero => rfl
    | succ b =>
      unfold Parser.moreNames
      rw [Parser.bind_of_ok (Parser.nextIs_run _ s), decide_eq_false hdot]
      rfl
  rw [moreNames, bind_of_ok (h.check_run (by nofun)), decide_eq_false hdot, if_neg Bool.false_ne_true, hmodel]
  exact .ok h.moved h (le_refl _)

/-- The names behind the first of a dotted name.  The token behind a dot is no farther than the end mark. -/
theorem follows_moreNames {b : Nat} (hb : n ≤ b) :
    Follows L keep 0 n L.list.moreNames (Parser.moreNames b) := by
  induction n generalizing b with
  | zero => exact fun c s hm hn => hm.moreNames_stops (by rw [next_of_length hn]; nofun) b
  | succ n ih =>
    obtain ⟨b, rfl⟩ := Nat.exists_eq_add_of_le' (Nat.one_le_of_lt hb)
    intro c s hm hn
    by_cases hdot : s.next.kind = .char '.'
    · have hne : s.next.kind ≠ .eof := by rw [hdot]; nofun
      have hlen := length_advance hne
      obtain ⟨c', hrun, hsee, hmoved⟩ := hm.peekAhead_run keep (n := 1) (by omega)
      rw [moreNames, bind_of_ok (hm.check_run (by nofun)), decide_eq_true hdot, if_pos rfl, bind_of_ok hrun]
      unfold Parser.moreNames
      rw [Parser.bind_of_ok (Parser.nextIs_run _ s), decide_eq_true hdot, if_pos rfl,
        Parser.bind_of_ok (Parser.peekSecond_run s)]
      cases hx : (s.ahead 1).kind with
      | name x =>
        rw [← next_advance] at hx
        have hne' : s.advance.next.kind ≠ .eof := by rw [hx]; nofun
        have hlen' := length_advance hne'
        have hstep := hsee.step hne
        simp only
        rw [bind_of_ok (hsee.advance_run hne), bind_of_ok (hstep.expectName_of_next hx),
          Parser.bind_of_ok (Parser.skip_run s), Parser.bind_of_ok (Parser.skip_run s.advance)]
        have htail : Follows L keep 0 n (do return x :: (← L.list.moreNames))
          (do return x :: (← Parser.moreNames b)) := .bind (ih (by omega)) fun xs => .pure _
        exact (htail (hstep.step hne') (by omega)).trans
          ((hmoved.trans (hsee.moved_step hne)).trans (hstep.moved_step hne')) (by omega)
      | _ => exact .ok hmoved hsee (le_refl _)
    · exact hm.moreNames_stops hdot _

theorem follows_dottedName {b : Nat} (hb : n ≤ b + 1) :
    Follows L keep 1 n L.list.dottedName (Parser.dottedName b) :=
  .step .expectName fun x => .bind (follows_moreNames (by omega)) fun xs => .pure _

/-! ### Lists -/

/-- Where no token is left none is taken. -/
theorem Follows.accept_at_end {t : TokenKind} {p p' : Indexed α} {q : Parser α} (ht : t ≠ .eof) (hn : n ≤ 0)
    (no : Follows L keep k n p' q) :
    Follows L keep k n (L.list.accept t >>= fun b => if b = true then p else p') q := by
  intro c s hm hlen
  have hend : s.next.kind = .eof := next_of_length (hlen.trans hn)
  rw [bind_of_ok (hm.accept_of_ne ht (by rw [hend]; exact ht.symm)), if_neg Bool.false_ne_true]
  exact no hm hlen

/-- Items with commas between them. -/
theorem follows_commaList {item : Indexed α} {list : Indexed (List α)} {q : Parser α}
    (hlist : list = do
      let a ← item
      if ← L.list.accept (.char ',') then
        return a :: (← list)
      else
        return [a])
    (hitem : Follows L keep 1 n item q) {b : Nat} (hb : n ≤ b + 1) :
    Follows L keep 1 n list (Parser.commaList q b) := by
  induction b generalizing n with
  | zero =>
    rw [hlist]
    exact .step hitem fun a => .accept_at_end (by nofun) (by omega) (.pure _)
  | succ b ih =>
    rw [hlist]
    refine .step hitem fun a => .accept_bind (by nofun) ?_ (.pure _)
    have hmore : Follows L keep 1 (n - 1 - 1) list (Parser.commaList q b) :=
      ih (hitem.fewer (by omega)) (by omega)
    exact .bind (hmore.any) fun as => .pure _

/-- Items in parentheses. -/
theorem follows_parenthesized {list : Indexed (List α)} {q : Parser α} {b : Nat}
    (hlist : Follows L keep 1 (n - 1) list (Parser.commaList q b)) :
    Follows L keep 1 n
      (do
        L.list.expect (.char '(')
        if ← L.list.check (.char ')') then
          L.list.expect (.char ')')
          return []
        else
          let as ← list
          L.list.expect (.char ')')
          return as)
      (Parser.parenthesized q b) := by
  refine .step (.expect (by nofun)) fun _ c s hm hn => ?_
  rw [bind_of_ok (hm.check_run (by nofun))]
  by_cases hclose : s.next.kind = .char ')'
  · have hne : s.next.kind ≠ .eof := by rw [hclose]; nofun
    rw [decide_eq_true hclose, if_pos rfl, bind_of_ok (hm.expect_of_next (by nofun) hclose),
      Parser.bind_of_ok (Parser.accept_of_next hclose)]
    exact .ok (hm.moved_step hne) (hm.step hne) (Nat.le_of_succ_le (length_advance hne).le)
  · rw [decide_eq_false hclose, if_neg Bool.false_ne_true, Parser.bind_of_ok (Parser.accept_of_ne hclose)]
    exact Follows.step hlist (fun as => .step (.expect (by nofun)) fun _ => .pure as) hm hn

/-! ### Expressions -/

/-- The readers by index for the levels that an expression may be nested at. -/
def atLevel (L : Listing) : Level → Indexed Node
  | .test => L.list.leftAssoc .disjunction
  | .negation => L.list.negation
  | .signed => L.list.signed

theorem Tier.join?_eof (tier : Tier) : tier.join? .eof = none := by
  cases tier <;> rfl

/-- The operands behind operators of a tier. -/
theorem follows_operands {tier : Tier} {q : Parser Node}
    (hoperand : Follows L keep 1 n (L.list.operand tier) q) {b : Nat} (hb : n ≤ b) (left : Node) :
    Follows L keep 0 n (L.list.operands tier left) (Parser.operands tier.join? q b left) := by
  induction b generalizing n left with
  | zero =>
    -- where the bound is used up no token is left, so there is no operator either
    intro c s hm hn
    rw [operands, bind_of_ok hm.peek_run]
    simp only [next_of_length (hn.trans hb), Tier.join?_eof]
    exact .ok hm.moved hm (le_refl _)
  | succ b ih =>
    rw [operands]
    refine .peek_bind fun t => ?_
    cases hj : tier.join? t.kind with
    | none => exact (Follows.pure left).at_next t
    | some join =>
      have ht : t.kind ≠ .eof := fun h => by
        rw [h, Tier.join?_eof] at hj
        cases hj
      simp only
      refine .advance_bind ht (.step ?_ fun right => ?_)
      · exact hoperand.fewer (Nat.sub_le _ _)
      · exact (ih (hoperand.fewer (by omega)) (by omega) (join left right))

theorem follows_leftAssoc {tier : Tier} {q : Parser Node}
    (hoperand : Follows L keep 1 n (L.list.operand tier) q) {b : Nat} (hb : n ≤ b) :
    Follows L keep 1 n (L.list.leftAssoc tier) (Parser.leftAssoc tier.join? q b) := by
  rw [leftAssoc]
  refine .step hoperand fun left => ?_
  exact follows_operands (hoperand.fewer (Nat.sub_le _ _)) ((Nat.sub_le _ _).trans hb) left

section

variable {N : Nat} {inner : Level → Parser Node} (hinner : ∀ l, Follows L True 1 N (atLevel L l) (inner l))

include hinner

theorem follows_inner (hn : n ≤ N + 1) (l : Level) : Follows L True 1 (n - 1) (atLevel L l) (inner l) :=
  (hinner l).fewer (by omega)

theorem follows_arguments (hn : n ≤ N + 1) :
    Follows L True 1 n L.list.arguments (Parser.arguments (N + 1) inner) := by
  rw [arguments]
  exact follows_parenthesized (follows_commaList (TokenList.testList.eq_1 L.list) (follows_inner hinner hn .test)
    (by omega))

theorem follows_methodCalls (hn : n ≤ N + 1) {b : Nat} (hb : n ≤ b) (object : Node) :
    Follows L True 0 n (L.list.methodCalls object) (Parser.methodCalls (N + 1) inner b object) := by
  induction b generalizing n object with
  | zero =>
    rw [methodCalls]
    exact .accept_at_end (by nofun) hb (.pure object)
  | succ b ih =>
    rw [methodCalls]
    refine .accept_bind (by nofun) ?_ (.pure object)
    refine .step .expectName fun method => .step (follows_arguments hinner (by omega)) fun args => ?_
    exact .bind (.spanFrom _) fun span => ih (by omega) (by omega) _

theorem follows_callByName (hn : n ≤ N + 1) (name : String) (start : Span) :
    Follows L True 1 n (L.list.callByName name start) (Parser.callByName (N + 1) inner name start) := by
  rw [callByName]
  unfold Parser.callByName
  refine .declares_bind ?_ (.ite ?_ (.throw nofun))
  · refine .step (follows_arguments hinner hn) fun args => .bind (.spanFrom start) fun span => ?_
    exact .unit_pure fun u => Node.new span ⟨u, name⟩ args
  · refine .step (.expect (by nofun)) fun _ => .step (follows_inner hinner hn .test) fun arg => ?_
    exact .step (.expect (by nofun)) fun _ => .bind (.spanFrom start) fun span => .pure _

theorem follows_dottedValue (hn : n ≤ N + 1) :
    Follows L True 1 n L.list.dottedValue (Parser.dottedValue (N + 1) inner) := by
  rw [dottedValue]
  refine .bind .peek fun t => .step (follows_dottedName (by omega)) fun path => ?_
  refine .bind (.check (by nofun)) fun b => .ite ?_ (.bind (.spanFrom _) fun span => .pure _)
  refine .bind (.spanFrom _) fun span => ?_
  exact .step (follows_arguments hinner (by omega)) fun args => .bind (.spanFrom _) fun span' => .pure _

set_option linter.auxLemma false in
theorem follows_primary (hn : n ≤ N + 1) :
    Follows L True 1 n L.list.primary (Parser.primary (N + 1) inner) := by
  rw [primary]
  refine .peek_bind fun t => ?_
  have single {v : Literal} (ht : t.kind ≠ .eof) {f : Token → Indexed Node}
      (hf : f t = pure (.literal t.span v)) :
      FollowsAt L t True 1 n (L.list.advance >>= f) (do Parser.skip; return .literal t.span v) :=
    .advance_bind ht (by rw [hf]; exact .pure _)
  cases hk : t.kind with
  | name x =>
    have ht : t.kind ≠ .eof := by rw [hk]; nofun
    refine .second_bind ht fun u => ?_
    split
    · exact .advance_bind ht ((follows_callByName hinner (by omega) x t.span).any)
    · exact (follows_dottedValue hinner hn).at_next t
  | number i => exact single (by rw [hk]; nofun) (by rw [hk]; rfl)
  | string x => exact single (by rw [hk]; nofun) (by rw [hk]; rfl)
  | keyword w =>
    cases w with
    | kTrue => exact single (by rw [hk]; nofun) (by rw [hk]; rfl)
    | kFalse => exact single (by rw [hk]; nofun) (by rw [hk]; rfl)
    | kNone => exact single (by rw [hk]; nofun) (by rw [hk]; rfl)
    | _ => exact .advance_unexpected "expression" (by rw [hk]; rfl) rfl
  | char x =>
    by_cases hopen : x = '('
    · subst hopen
      refine .advance_bind (by rw [hk]; nofun) ?_
      rw [hk]
      refine .step (follows_inner hinner hn .test) fun e => ?_
      exact .step (.expect (by nofun)) fun _ => .pure e
    · -- no other punctuation begins an expression, whether it is taken first or not
      refine .advance_unexpected "expression" ?_ ?_
      · rw [hk]
        exact if_neg fun h => hopen (TokenKind.char.inj h)
      · -- `split` has no equations for a match that mixes characters with numbers
        delta Parser.primary.match_1
        exact dif_neg hopen
  | _ => exact .advance_unexpected "expression" (by rw [hk]; rfl) rfl

theorem follows_signed (hn : n ≤ N + 1) :
    Follows L True 1 n L.list.signed (Parser.signed (N + 1) inner) := by
  rw [signed]
  refine .bind .peek fun t => .accept_bind (by nofun) ?_ ?_
  · exact .bind ((follows_inner hinner hn .signed).any) fun arg => .pure _
  · exact .step (follows_primary hinner hn) fun object => follows_methodCalls hinner (by omega) (by omega) object

theorem follows_product (hn : n ≤ N + 1) :
    Follows L True 1 n (L.list.leftAssoc .product) (Parser.product (N + 1) inner) := by
  refine follows_leftAssoc ?_ hn
  rw [operand]
  exact follows_signed hinner hn

theorem follows_sum (hn : n ≤ N + 1) :
    Follows L True 1 n (L.list.leftAssoc .sum) (Parser.sum (N + 1) inner) := by
  refine follows_leftAssoc ?_ hn
  rw [operand]
  exact follows_product hinner hn

theorem follows_comparison (hn : n ≤ N + 1) :
    Follows L True 1 n L.list.comparison (Parser.comparison (N + 1) inner) := by
  rw [comparison]
  refine .step (follows_sum hinner hn) fun left => .peek_bind fun t => ?_
  cases hop : Parser.comparator? t.kind with
  | none => exact (Follows.pure left).at_next t
  | some op =>
    have ht : t.kind ≠ .eof := fun h => by
      rw [h] at hop
      cases hop
    refine .advance_bind ht (.bind ?_ fun right => .pure _)
    exact (follows_sum hinner (by omega)).any

theorem follows_negation (hn : n ≤ N + 1) :
    Follows L True 1 n L.list.negation (Parser.negation (N + 1) inner) := by
  rw [negation]
  refine .bind .peek fun t => .accept_bind (by nofun) ?_ (follows_comparison hinner hn)
  exact .bind ((follows_inner hinner hn .negation).any) fun arg => .pure _

theorem follows_disjunction (hn : n ≤ N + 1) :
    Follows L True 1 n (L.list.leftAssoc .disjunction) (Parser.disjunction (N + 1) inner) := by
  have hconjunction :
      Follows L True 1 n (L.list.leftAssoc .conjunction) (Parser.conjunction (N + 1) inner) := by
    refine follows_leftAssoc ?_ hn
    rw [operand]
    exact follows_negation hinner hn
  refine follows_leftAssoc ?_ hn
  rw [operand]
  exact hconjunction

/-- Where the readers of the nested expressions follow one another, so do those of the levels. -/
theorem follows_atLevel (l : Level) : Follows L True 1 (N + 1) (atLevel L l) (Parser.atLevel (N + 1) inner l) := by
  cases l with
  | test => exact follows_disjunction hinner (le_refl _)
  | negation => exact follows_negation hinner (le_refl _)
  | signed => exact follows_signed hinner (le_refl _)

end

/-! ### The end -/

/-- The fault that there is no expression. -/
def noExpression {α : Type} : Parser α := do Parser.unexpected "expression" (← Parser.peek)

theorem Follows.bind_noExpression {β : Type} {p : Indexed α} {f : α → Indexed β}
    (h : Follows L keep k n p noExpression) : Follows L keep k n (p >>= f) noExpression := by
  intro c s hm hn
  have hrun := h hm hn
  generalize hpc : p c = r at hrun
  cases hrun with
  | error moved target =>
    rw [bind_of_error hpc]
    exact .error moved target

theorem Follows.at_noExpression {p : Indexed α} (h : Follows L keep k n p noExpression) (t : Token) :
    FollowsAt L t keep k n p (Parser.unexpected "expression" t) := by
  intro c s hm hnext hn
  subst hnext
  exact h hm hn

/-- Where no token is left no expression is found, at whatever level it is looked for. -/
theorem follows_atLevel_end (l : Level) : Follows L True 1 0 (atLevel L l) noExpression := by
  have hprimary : Follows L True 1 0 L.list.primary noExpression := by
    rw [primary]
    refine .peek_bind fun t => ?_
    by_cases ht : t.kind = .eof
    · rw [ht]
      exact .advance_unexpected "expression" (by rw [ht]; rfl) rfl
    · exact .of_pos ht fun h => absurd rfl h
  have hsigned : Follows L True 1 0 L.list.signed noExpression := by
    rw [signed]
    exact .peek_left fun t => .accept_at_end (by simp) (le_refl _) hprimary.bind_noExpression
  have hleft {tier : Tier} (h : Follows L True 1 0 (L.list.operand tier) noExpression) :
      Follows L True 1 0 (L.list.leftAssoc tier) noExpression := by
    rw [leftAssoc]
    exact h.bind_noExpression
  have hsum : Follows L True 1 0 (L.list.leftAssoc .sum) noExpression := by
    refine hleft ?_
    rw [operand]
    refine hleft ?_
    rw [operand]
    exact hsigned
  have hnegation : Follows L True 1 0 L.list.negation noExpression := by
    rw [negation]
    refine .peek_left fun t => .accept_at_end (by simp) (le_refl _) ?_
    rw [comparison]
    exact hsum.bind_noExpression
  cases l with
  | test =>
    refine hleft ?_
    rw [operand]
    refine hleft ?_
    rw [operand]
    exact hnegation
  | negation => exact hnegation
  | signed => exact hsigned

/-- An expression is read alike by index and from the list. -/
theorem follows_expression (n : Nat) (l : Level) : Follows L True 1 n (atLevel L l) (Parser.expression n l) := by
  induction n generalizing l with
  | zero => exact follows_atLevel_end l
  | succ n ih => exact follows_atLevel ih l

end Indexed

end ClassScript

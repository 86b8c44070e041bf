import ClassScript.Proofs.IndexedExpressions
import ClassScript.Proofs.StatementComplete

/-!
# Programs by index

A reader that has looked ahead or has gone back is at the same place as one that has not moved, so statements and
programs are read alike by index and from the list.  Main statement: on tokens with an end mark behind them the
reader by index comes to an end, never leaves the list and never goes behind the first end mark (`program_total`).
-/

namespace ClassScript

namespace Indexed

open TokenList

variable {α : Type} {L : Listing} {c c' : Position} {s : Reading} {keep : Prop} {k n : Nat}

theorem follows_test (n : Nat) : Follows L keep 1 n L.list.test (Parser.test n) :=
  (follows_expression n .test).free

/-! ### Statements that end with their line -/

theorem dottedName_ne_nil {b : Nat} {s s' : Reading} {path : List String}
    (h : Parser.dottedName b s = .ok (path, s')) : path ≠ [] := by
  unfold Parser.dottedName at h
  obtain ⟨x, s₁, -, h⟩ := Parser.bind_eq_ok.1 h
  obtain ⟨xs, s₂, -, h⟩ := Parser.bind_eq_ok.1 h
  obtain ⟨rfl, -⟩ := Parser.pure_eq_ok.1 h
  exact List.cons_ne_nil x xs

/-- A name that is assigned has a part at least, so there is a target. -/
theorem follows_assignment (n : Nat) :
    Follows L keep 1 n L.list.assignment (Parser.assignment n) := by
  refine .bind .peek fun t => ?_
  refine (follows_dottedName (by omega)).andThen (i := 0) (fun path hpath => ?_) (le_refl _)
  obtain ⟨s, s', hpath⟩ := hpath
  have hne := dottedName_ne_nil hpath
  refine .step (.expect (by nofun)) fun _ => .bind ((follows_test n).any.fewer (by omega)) fun value => ?_
  match path, hne with
  | [x], _ => exact .pure _
  | x :: y :: path, _ => exact .pure _

/-! #### Arguments that end the line -/

theorem attempt_of_ok {p : Indexed α} {a : α} (h : p c = some (.ok a, c')) :
    attempt p c = some (.ok (some a), c') := by
  unfold attempt
  show Option.bind (Option.bind (p c) _) _ = _
  rw [h]
  rfl

theorem attempt_of_fault {p : Indexed α} {e : SyntaxError} (h : p c = some (.error (.fault e), c')) :
    attempt p c = some (.ok none, c') := by
  unfold attempt
  show Option.bind (Option.bind (p c) _) _ = _
  rw [h]
  rfl

/-- A reader that has kept the classes may go back to where it began. -/
theorem Meets.rewind (h : Meets L c s) (moved : Moved L True c c') :
    Meets L { c' with current := c.current } s where
  unit_eq := h.unit_eq
  rest := h.rest
  current_le := h.current_le
  current_le_furthest := h.current_le_furthest.trans moved.grows
  furthest_le := moved.furthest_le
  last := h.last
  final := h.final
  declared := h.declared.trans (moved.declared trivial).symm

theorem Outcome.rewind {a : α} (h : Meets L c s) (moved : Moved L True c c') :
    Outcome L keep 0 c s (some (.ok a, { c' with current := c.current })) (.ok (a, s)) :=
  .ok ⟨moved.grows, moved.furthest_le, h.current_le_furthest.trans moved.grows, fun _ => moved.declared trivial⟩
    (h.rewind moved) (le_refl _)

theorem parenthesized_of_ne {q : Parser α} {b : Nat} (h : s.next.kind ≠ .char '(') :
    ∃ e, Parser.parenthesized q b s = .error e := by
  cases hrun : Parser.parenthesized q b s with
  | error e => exact ⟨e, rfl⟩
  | ok x =>
    obtain ⟨_, _, hopen, -⟩ := Parser.bind_eq_ok.1 hrun
    exact absurd (Parser.expect_eq_ok.1 hopen).1 h

theorem follows_lineArguments (n : Nat) :
    Follows L keep 0 n L.list.lineArguments (Parser.lineArguments n) := by
  intro c s hm hn
  rw [lineArguments, bind_of_ok (hm.check_run (by simp))]
  unfold Parser.lineArguments
  by_cases hopen : s.next.kind = .char '('
  · rw [decide_eq_true hopen, if_pos rfl]
    have hargs : Follows L True 1 n L.list.arguments (Parser.parenthesized (Parser.test n) n) := by
      rw [arguments]
      exact follows_parenthesized (follows_commaList (TokenList.testList.eq_1 L.list)
        ((follows_test n).fewer (Nat.sub_le _ _)) (by omega))
    have hrun := hargs hm hn
    show Outcome L keep 0 c s ((attempt L.list.arguments >>= _) c) _
    generalize hindex : L.list.arguments c = r at hrun
    generalize Parser.parenthesized (Parser.test n) n s = r' at hrun
    cases hrun with
    | @ok args c' s' moved meets taken =>
      rw [bind_of_ok (attempt_of_ok hindex)]
      simp only
      rw [bind_of_ok (meets.check_run (by simp))]
      by_cases hline : s'.next.kind = .newline
      · rw [decide_eq_true hline, if_pos rfl, if_pos hline]
        exact .ok moved.free meets (by omega)
      · -- expressions declare no class, so the index is all that has to be set back
        rw [decide_eq_false hline, if_neg Bool.false_ne_true, if_neg hline]
        exact .rewind hm moved
    | error moved target =>
      rw [bind_of_ok (attempt_of_fault hindex)]
      exact .rewind hm moved
  · obtain ⟨e, he⟩ := parenthesized_of_ne (q := Parser.test n) (b := n) hopen
    rw [decide_eq_false hopen, if_neg Bool.false_ne_true, he]
    exact .ok hm.moved hm (le_refl _)

theorem follows_printed (n : Nat) (start : Span) :
    Follows L keep 0 n (L.list.printed start) (Parser.printed n start) := by
  refine .bind (follows_lineArguments n) fun args => ?_
  match args with
  | some args => exact .bind (.spanFrom start) fun span => .pure _
  | none =>
    refine .bind (.check (by nofun)) fun b => .ite (.bind (.spanFrom start) fun span => .pure _) ?_
    have htests : Follows L keep 1 n L.list.testList (Parser.commaList (Parser.test n) n) :=
      follows_commaList (TokenList.testList.eq_1 L.list) (follows_test n) (by omega)
    exact .step htests fun args => .bind (.spanFrom start) fun span => .pure _

theorem follows_returned (n : Nat) (start : Span) :
    Follows L keep 0 n (L.list.returned start) (Parser.returned n start) := by
  refine .bind (.check (by nofun)) fun b => .ite (.bind (.pure _) fun value => .pure _) ?_
  exact .step (follows_test n) fun value => .pure _

/-! #### Looking ahead for an assignment -/

theorem ahead_eq (s : Reading) (n i : Nat) : s.ahead (n + i) = (s.rest.drop n)[i]?.getD ⟨.eof, s.final⟩ := by
  rw [List.getElem?_drop]
  rfl

theorem lt_length_of_ahead {n : Nat} (h : (s.ahead n).kind ≠ .eof) : n < s.rest.length := by
  by_contra hge
  exact h (by rw [Reading.ahead, List.getElem?_eq_none (not_lt.1 hge)]; rfl)

/-- Whether an assignment follows is told by the next two tokens, and by those behind them if these are a dot and
a name. -/
theorem isAssignment_more (w : List Token) (last : Token) (hlast : last.kind = .eof) :
    Parser.isAssignment.more w =
      if (w[0]?.getD last).kind = .char '.' then
        match (w[1]?.getD last).kind with
        | .name _ => Parser.isAssignment.more (w.drop 2)
        | _ => false
      else decide ((w[0]?.getD last).kind = .char '=') := by
  fun_cases Parser.isAssignment.more w with
  | case1 span x span' rest => simp
  | case2 span rest => simp
  | case3 w hdot hequals =>
    match w with
    | [] => simp [hlast]
    | ⟨j, span⟩ :: rest =>
      have hj : j ≠ .char '=' := fun h => hequals span rest (by rw [h])
      by_cases hd : j = .char '.'
      · subst hd
        match rest with
        | [] => simp [hlast]
        | ⟨i, span'⟩ :: rest =>
          cases i with
          | name x => exact (hdot span x span' rest rfl).elim
          | _ => simp
      · simp [hj, hd]

/-- The look ahead for an assignment ends at the end mark, if not before. -/
theorem Meets.assignmentBehind_run (h : Meets L c s) (keep : Prop) {n : Nat} (hn : n < s.rest.length) :
    ∃ c', L.list.assignmentBehind n c = some (.ok (Parser.isAssignment.more (s.rest.drop (n + 1))), c') ∧
      Meets L c' s ∧ Moved L keep c c' := by
  induction hleft : s.rest.length - n using Nat.strong_induction_on generalizing n c with
  | _ left ih =>
    obtain ⟨c₁, hrun₁, hmeets₁, hmoved₁⟩ := h.peekAhead_run keep hn
    rw [assignmentBehind, bind_of_ok hrun₁, isAssignment_more _ ⟨.eof, s.final⟩ rfl, ← ahead_eq,
      ← ahead_eq, List.drop_drop]
    by_cases hdot : (s.ahead (n + 1)).kind = .char '.'
    · have hlt : n + 2 ≤ s.rest.length := lt_length_of_ahead (by rw [hdot]; nofun)
      obtain ⟨c₂, hrun₂, hmeets₂, hmoved₂⟩ := hmeets₁.peekAhead_run keep hlt
      rw [if_pos hdot, if_pos hdot, bind_of_ok hrun₂, show n + 1 + 1 = n + 2 from rfl]
      cases hx : (s.ahead (n + 2)).kind with
      | name x =>
        have hlt' : n + 2 < s.rest.length := lt_length_of_ahead (by rw [hx]; nofun)
        obtain ⟨c', hrun, hmeets, hmoved⟩ := ih _ (by omega) hmeets₂ hlt' rfl
        exact ⟨c', hrun, hmeets, (hmoved₁.trans hmoved₂).trans hmoved⟩
      | _ =>
        obtain ⟨c₃, hrun₃, hmeets₃, hmoved₃⟩ := hmeets₂.peekAhead_run keep hn
        refine ⟨c₃, (bind_of_ok hrun₃).trans ?_, hmeets₃, (hmoved₁.trans hmoved₂).trans hmoved₃⟩
        rw [hdot]
        rfl
    · obtain ⟨c₂, hrun₂, hmeets₂, hmoved₂⟩ := hmeets₁.peekAhead_run keep hn
      rw [if_neg hdot, if_neg hdot, bind_of_ok hrun₂]
      exact ⟨c₂, rfl, hmeets₂, hmoved₁.trans hmoved₂⟩

theorem Meets.isAssignment_run (h : Meets L c s) (keep : Prop) :
    ∃ c', L.list.isAssignment c = some (.ok (Parser.isAssignment s.rest), c') ∧ Meets L c' s ∧
      Moved L keep c c' := by
  obtain ⟨c₁, hrun₁, hmeets₁, hmoved₁⟩ := h.peekAhead_run keep (Nat.zero_le _)
  unfold isAssignment
  rw [bind_of_ok hrun₁]
  cases hrest : s.rest with
  | nil =>
    have hnext : s.ahead 0 = ⟨.eof, s.final⟩ := by rw [Reading.ahead, hrest]; rfl
    rw [hnext]
    exact ⟨c₁, rfl, hmeets₁, hmoved₁⟩
  | cons t rest =>
    have hnext : s.ahead 0 = t := by rw [Reading.ahead, hrest]; rfl
    obtain ⟨j, span⟩ := t
    rw [hnext]
    cases j with
    | name x =>
      have hpos : 0 < s.rest.length := by rw [hrest]; exact Nat.succ_pos _
      obtain ⟨c', hrun, hmeets, hmoved⟩ := hmeets₁.assignmentBehind_run keep hpos
      rw [hrest] at hrun
      exact ⟨c', hrun, hmeets, hmoved₁.trans hmoved⟩
    | _ => exact ⟨c₁, rfl, hmeets₁, hmoved₁⟩

/-- A statement that ends with its line. -/
theorem follows_simple (n : Nat) : Follows L keep 0 n L.list.simple (Parser.simple n) := by
  refine .bind .peek fun t => .accept_bind (by nofun) ?_ (.accept_bind (by nofun) ?_ ?_)
  · exact (follows_returned n t.span).fewer (Nat.sub_le _ _)
  · exact (follows_printed n t.span).fewer (Nat.sub_le _ _)
  · exact .ask_bind _ (fun hm => hm.isAssignment_run keep) ((follows_assignment n).any)
      ((follows_test n).any)

/-! ### Statements with blocks -/

/-- Items up to a token that ends them. -/
theorem follows_manyUntil {item : Indexed α} {list : Indexed (List α)} {q : Parser α} {stop : TokenKind → Bool}
    (hstop : stop .eof = true)
    (hlist : list = do
      if stop (← L.list.peek).kind then
        return []
      else
        let a ← item
        return a :: (← list))
    (hitem : Follows L keep 1 n item q) {b : Nat} (hb : n ≤ b) :
    Follows L keep 0 n list (Parser.manyUntil stop q b) := by
  induction b generalizing n with
  | zero =>
    intro c s hm hn
    rw [hlist, bind_of_ok hm.peek_run, next_of_length (hn.trans hb), if_pos hstop]
    exact .ok hm.moved hm (le_refl _)
  | succ b ih =>
    rw [hlist]
    refine .bind .peek fun t => .ite (.pure []) (.step hitem fun a => ?_)
    exact .bind (ih (hitem.fewer (Nat.sub_le _ _)) (by omega)) fun as => .pure _

theorem follows_parentClass : Follows L keep 0 n L.list.parentClass Parser.parentClass := by
  refine .accept_bind (by nofun) (.step .expectName fun name => .finishes_bind ?_ ?_) (.pure none)
  · exact .step (.expect (by nofun)) fun _ => .unit_pure fun u => some (ClassId.mk u name)
  · exact .bind .lastSpan fun span => .throw nofun

theorem follows_parameters {b : Nat} (hb : n ≤ b) :
    Follows L keep 1 n L.list.parameters (Parser.parenthesized Parser.expectName b) :=
  follows_parenthesized (follows_commaList (TokenList.nameList.eq_1 L.list) .expectName (by omega))

theorem follows_openClass (name : String) :
    Follows L False 0 n (openClass name) (modify (Reading.openClass · name)) := fun _ _ hm _ =>
  .ok ⟨le_refl _, hm.furthest_le, hm.current_le_furthest, nofun⟩
    { hm with declared := congrArg (Declared.mk name false :: ·) hm.declared } (le_refl _)

theorem follows_closeClass (name : String) :
    Follows L False 0 n (closeClass name) (modify (Reading.closeClass · name)) := fun _ _ hm _ =>
  .ok ⟨le_refl _, hm.furthest_le, hm.current_le_furthest, nofun⟩
    { hm with declared := congrArg (List.map _) hm.declared } (le_refl _)

section

variable {N : Nat} {stmt : Parser Node} (hstmt : Follows L False 1 N L.list.statement stmt)

include hstmt

theorem follows_suite (hn : n ≤ N + 1) :
    Follows L False 1 n L.list.suite (Parser.suite (N + 1) stmt) := by
  rw [suite]
  refine .step (.expect (by nofun)) fun _ => .bind .peek fun t => .step (.expect (by nofun)) fun _ => ?_
  have hbody : Follows L False 0 (n - 1 - 1) (L.list.statements Parser.endsBlock)
      (Parser.manyUntil Parser.endsBlock stmt (N + 1)) :=
    follows_manyUntil rfl (TokenList.statements.eq_1 L.list _) (hstmt.fewer (by omega)) (by omega)
  exact .bind hbody fun body => .step (.expect (by nofun)) fun _ => .bind (.spanFrom _) fun span => .pure _

theorem follows_conditional (hn : n ≤ N + 1) :
    Follows L False 1 n L.list.conditional (Parser.conditional (N + 1) stmt) := by
  rw [conditional]
  refine .bind .peek fun t => .step (.expect (by nofun)) fun _ => ?_
  refine .step ((follows_test (N + 1)).fewer (by omega)) fun cond => ?_
  refine .step (.expect (by nofun)) fun _ => .step (follows_suite hstmt (by omega)) fun yes => ?_
  refine .accept_bind (by nofun) ?_ (.bind (.spanFrom _) fun span => .pure _)
  refine .step (.expect (by nofun)) fun _ => .step (follows_suite hstmt (by omega)) fun no => ?_
  exact .bind (.spanFrom _) fun span => .pure _

theorem follows_method (hn : n ≤ N + 1) :
    Follows L False 1 n L.list.method (Parser.method (N + 1) stmt) := by
  rw [method]
  refine .bind .peek fun t => .step (.expect (by nofun)) fun _ => .step .expectName fun name => ?_
  refine .step (follows_parameters (by omega)) fun params => .step (.expect (by nofun)) fun _ => ?_
  exact .step (follows_suite hstmt (by omega)) fun body => .bind (.spanFrom _) fun span => .pure _

theorem follows_classDefinition (hn : n ≤ N + 1) :
    Follows L False 1 n L.list.classDefinition (Parser.classDefinition (N + 1) stmt) := by
  rw [classDefinition]
  refine .bind .peek fun t => .step (.expect (by nofun)) fun _ => .step .expectName fun name => ?_
  refine .declares_bind (.bind .lastSpan fun span => .throw nofun) ?_
  refine .bind follows_parentClass fun parent => .step (.expect (by nofun)) fun _ => ?_
  refine .step (.expect (by nofun)) fun _ => .step (.expect (by nofun)) fun _ => ?_
  refine .bind (follows_openClass name) fun _ => .step (follows_method hstmt (by omega)) fun first => ?_
  refine .bind (follows_manyUntil rfl (TokenList.methods.eq_1 L.list) (follows_method hstmt (by omega)) (by omega))
    fun others => ?_
  refine .step (.expect (by nofun)) fun _ => .bind (follows_closeClass name) fun _ => ?_
  exact .bind (.spanFrom _) fun span =>
    .unit_pure fun u => Node.classDef span ⟨⟨u, name⟩, parent, first :: others⟩

/-- Where the readers of the nested statements follow one another, so do those of statements. -/
theorem follows_statementOver :
    Follows L False 1 (N + 1) L.list.statement (Parser.statementOver (N + 1) stmt) := by
  have hline : Follows L False 1 (N + 1) (do let node ← L.list.simple; L.list.expect .newline; return node)
      (do let node ← Parser.simple (N + 1); Parser.expect .newline; return node) :=
    .bind (follows_simple (N + 1)) fun node => .step (.expect (by nofun)) fun _ => .pure node
  rw [statement]
  refine .peek_bind fun t => ?_
  cases hk : t.kind with
  | keyword w =>
    cases w with
    | kClass => exact (follows_classDefinition hstmt (le_refl _)).at_next t
    | kIf => exact (follows_conditional hstmt (le_refl _)).at_next t
    | kDef => exact (Follows.bind .peek fun u => .throw (by nofun)).at_next t
    | _ => exact hline.at_next t
  | _ => exact hline.at_next t

end

/-- Where no token is left no statement is found. -/
theorem follows_statement_end : Follows L False 1 0 L.list.statement noExpression := by
  have hsimple : Follows L False 1 0 L.list.simple noExpression := by
    refine .peek_left fun t => .accept_at_end (by nofun) (le_refl _) (.accept_at_end (by nofun) (le_refl _) ?_)
    intro c s hm hn
    obtain ⟨c', hrun, hmeets, hmoved⟩ := hm.isAssignment_run False
    rw [List.length_eq_zero_iff.1 (Nat.le_zero.1 hn)] at hrun
    rw [bind_of_ok hrun]
    exact (follows_atLevel_end .test).free hmeets hn |>.trans hmoved (le_refl _)
  rw [statement]
  refine .peek_bind fun t => ?_
  by_cases ht : t.kind = .eof
  · rw [ht]
    exact hsimple.bind_noExpression.at_noExpression t
  · exact .of_pos ht fun h => absurd rfl h

/-- A statement is read alike by index and from the list. -/
theorem follows_statement (n : Nat) : Follows L False 1 n L.list.statement (Parser.statement n) := by
  induction n with
  | zero => exact follows_statement_end
  | succ n ih => exact follows_statementOver ih

/-! ### Programs -/

/-- A program is read alike by index and from the list. -/
theorem follows_program (n : Nat) : Follows L False 0 n L.list.program (Parser.program n) := by
  refine .bind .peek fun t => ?_
  have hbody : Follows L False 0 n (L.list.statements (· = .eof))
      (Parser.manyUntil (· = .eof) (Parser.statement n) n) :=
    follows_manyUntil rfl (TokenList.statements.eq_1 L.list _) (follows_statement n) (le_refl _)
  exact .bind hbody fun body => .bind .peek fun t' => .pure _

end Indexed

namespace Listing

/-- The reading of a program before anything is read. -/
def start (L : Listing) : Reading where
  unit := L.unit
  last := (L.front.head?.map Token.span).getD L.mark
  rest := L.front
  final := L.mark
  declared := []

theorem ofTokens_tokens (L : Listing) : Reading.ofTokens L.unit L.tokens = L.start := by
  have hfront : ∀ t ∈ L.front, decide (t.kind ≠ .eof) = true := by simpa using L.front_ne
  have hlast : L.tokens.head?.map Token.span = some ((L.front.head?.map Token.span).getD L.mark) := by
    rw [tokens]
    cases L.front <;> rfl
  have hrest : L.tokens.takeWhile (fun t => t.kind ≠ .eof) = L.front := by
    rw [tokens, List.takeWhile_append_of_pos hfront, List.takeWhile_cons_of_neg (by simp), List.append_nil]
  have hfinal : L.tokens.find? (fun t => t.kind = .eof) = some ⟨.eof, L.mark⟩ := by
    rw [tokens, List.find?_append, List.find?_eq_none.2 (by simpa using L.front_ne)]
    rfl
  rw [Reading.ofTokens, hlast, hrest, hfinal]
  rfl

theorem meets_start (L : Listing) : Indexed.Meets L {} L.start where
  unit_eq := rfl
  rest := rfl
  current_le := Nat.zero_le _
  current_le_furthest := le_refl _
  furthest_le := Nat.zero_le _
  last := by
    show L.tokens[0]?.map Token.span = some ((L.front.head?.map Token.span).getD L.mark)
    rw [tokens]
    cases L.front <;> rfl
  final := rfl
  declared := rfl

theorem findIdx_tokens (L : Listing) : L.tokens.findIdx (·.kind = .eof) = L.front.length := by
  have hfront : L.front.findIdx (·.kind = .eof) = L.front.length :=
    List.findIdx_eq_length_of_false (by simpa using L.front_ne)
  rw [tokens, List.findIdx_append, hfront, if_neg (Nat.lt_irrefl _)]
  simp [List.findIdx_cons]

/-- A list of tokens with an end mark may be cut at the first one. -/
theorem exists_of_mem (unit : Nat) {tokens : List Token} (h : ∃ t ∈ tokens, t.kind = .eof) :
    ∃ L : Listing, L.unit = unit ∧ L.tokens = tokens := by
  induction tokens with
  | nil =>
    obtain ⟨t, ht, -⟩ := h
    cases ht
  | cons t ts ih =>
    obtain ⟨j, span⟩ := t
    by_cases hj : j = .eof
    · subst hj
      exact ⟨⟨unit, [], span, ts, List.forall_mem_nil _⟩, rfl, rfl⟩
    · obtain ⟨t, ht, hk⟩ := h
      rcases List.mem_cons.1 ht with rfl | ht
      · exact absurd hk hj
      · obtain ⟨L, hunit, rfl⟩ := ih ⟨t, ht, hk⟩
        exact ⟨⟨unit, ⟨j, span⟩ :: L.front, L.mark, L.back, List.forall_mem_cons.2 ⟨hj, L.front_ne⟩⟩, rfl, rfl⟩

/-- What stands behind the first end mark may be left out. -/
theorem ofTokens_cut (L : Listing) :
    Node.ofTokens L.unit { L with back := [] }.tokens = Node.ofTokens L.unit L.tokens := by
  have hcut : Reading.ofTokens L.unit { L with back := [] }.tokens = L.start := ofTokens_tokens { L with back := [] }
  rw [Node.ofTokens, Node.ofTokens, hcut, ofTokens_tokens]

theorem tokens_cut (L : Listing) : { L with back := [] }.tokens = L.tokens.take (L.front.length + 1) := by
  rw [tokens, tokens, List.take_append, List.take_of_length_le (Nat.le_succ _)]
  simp

/-- A run by index comes to an end, and never goes behind the first end mark. -/
theorem program_run (L : Listing) :
    ∃ c, L.list.program {} = some ((Node.ofTokens L.unit L.tokens).mapError .fault, c) ∧
      c.furthest ≤ L.front.length ∧ c.current ≤ c.furthest ∧
      (∀ root, Node.ofTokens L.unit L.tokens = .ok root → c.current = L.front.length) ∧
      ∀ e, Node.ofTokens L.unit L.tokens = .error e → e.fault ≠ .invalidAssignmentTarget := by
  have hrun := Indexed.follows_program L.start.rest.length L.meets_start (le_refl _)
  have hread : Node.ofTokens L.unit L.tokens = Prod.fst <$> Parser.program L.start.rest.length L.start := by
    rw [Node.ofTokens, ofTokens_tokens]
    rfl
  rw [hread]
  generalize L.list.program {} = r at hrun
  generalize hprogram : Parser.program L.start.rest.length L.start = r' at hrun
  cases hrun with
  | @ok root c s moved meets taken =>
    refine ⟨c, rfl, moved.furthest_le, moved.current_le, fun _ _ => ?_, nofun⟩
    have heof : .eof ∉ L.start.kinds := by
      intro hmem
      obtain ⟨t, ht, hk⟩ := List.mem_map.1 hmem
      exact L.front_ne t ht hk
    have hnil : L.front.drop c.current = [] := by
      rw [← meets.rest]
      exact List.map_eq_nil_iff.1 (Parser.program_end heof hprogram)
    exact le_antisymm meets.current_le (List.drop_eq_nil_iff.1 hnil)
  | error moved target =>
    refine ⟨_, rfl, moved.furthest_le, moved.current_le, nofun, ?_⟩
    rintro e ⟨⟩
    exact target

end Listing

/-- Whatever tokens stand in front of an end mark, the reader by index comes to an end with what the reader of
lists gives, a tree or a fault of the tokens.  It never looks at an index outside of the list, nor behind the
first end mark, and comes to this if it gives a tree; what stands behind it changes nothing; and a target that
nothing can be assigned to is never found. -/
theorem program_total (unit : Nat) (front : List Token) (mark : Span) :
    let tokens := front ++ [⟨.eof, mark⟩]
    let first := tokens.findIdx (·.kind = .eof)
    let result := Node.ofTokens unit tokens
    (∃ c, TokenList.program ⟨unit, tokens⟩ {} = some (result.mapError .fault, c) ∧
      c.current ≤ c.furthest ∧ c.furthest ≤ first ∧ ∀ root, result = .ok root → c.current = first) ∧
    (∃ c, TokenList.program ⟨unit, tokens.take (first + 1)⟩ {} = some (result.mapError .fault, c)) ∧
    Node.ofTokens unit (tokens.take (first + 1)) = result ∧
    ∀ e, result = .error e → e.fault ≠ .invalidAssignmentTarget := by
  intro tokens first result
  have hmem : ∃ t ∈ tokens, t.kind = .eof := ⟨⟨.eof, mark⟩, List.mem_append_right _ List.mem_cons_self, rfl⟩
  obtain ⟨L, rfl, hL⟩ := Listing.exists_of_mem unit hmem
  obtain ⟨c, hrun, hfurthest, hcurrent, hok, herror⟩ := L.program_run
  have hfirst : first = L.front.length := by
    rw [← L.findIdx_tokens, hL]
  have hcut : tokens.take (first + 1) = { L with back := [] }.tokens := by
    rw [hfirst, L.tokens_cut, hL]
  have hsame : Node.ofTokens L.unit { L with back := [] }.tokens = result := by
    rw [L.ofTokens_cut, hL]
  obtain ⟨c', hrun', -⟩ := { L with back := [] }.program_run
  rw [Listing.list, hL] at hrun
  rw [hL] at hok herror
  rw [hcut, hfirst]
  refine ⟨⟨c, hrun, hcurrent, hfurthest, hok⟩, ⟨c', ?_⟩, hsame, herror⟩
  rw [← hsame]
  exact hrun'

end ClassScript

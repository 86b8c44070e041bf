import ClassScript.Proofs.ExpressionSound

/-!
# What is read as a statement is one

Whenever a reader of statements succeeds, the text that it has taken is a text of the tree that it
gives, and the class names behind it are those of the grammar.  Main statement: `program_sound`, which
adds that a whole program is taken to its end.
-/

namespace ClassScript

open Grammar

/-- `s'` stands behind the text `w` of `s`, in the same program. -/
structure Reading.Passed (s : Reading) (w : List TokenKind) (s' : Reading) : Prop where
  text : s.kinds = w ++ s'.kinds
  unit : s'.unit = s.unit

namespace Grammar

theorem Writes.length_pos {unit : Nat} {a b : ClassNames} {n : Node} {w : List TokenKind}
    (h : Writes unit a (.statement n) w b) : 0 < w.length := by
  cases h <;> simp only [List.length_append, List.length_cons, List.length_nil] <;> omega

theorem Writes.method_pos {unit : Nat} {a b : ClassNames} {m : Method} {w : List TokenKind}
    (h : Writes unit a (.method m) w b) : 0 < w.length := by
  cases h with
  | method h suite => exact Nat.succ_pos _

/-- Class names are not forgotten. -/
theorem Writes.declared_subset {unit : Nat} {a b : ClassNames} {c : Clause} {w : List TokenKind}
    (h : Writes unit a c w b) : a.declared ⊆ b.declared := by
  induction h with
  | ifThen cond body ih => exact ih
  | ifElse cond body other ih ih' => exact ih.trans ih'
  | classDef fresh known body nonempty ih => exact (Set.subset_insert _ _).trans ih
  | method h suite ih => exact ih
  | suite body ih => exact ih
  | statements first rest ih ih' => exact ih.trans ih'
  | methods first rest ih ih' => exact ih.trans ih'
  | _ => exact subset_rfl

end Grammar

namespace Reading

variable {s s' s'' : Reading} {v w : List TokenKind}

theorem Took.passed (h : s.Took w s') : s.Passed w s' := ⟨h.text, h.unit⟩

theorem Passed.trans (h : s.Passed v s') (h' : s'.Passed w s'') : s.Passed (v ++ w) s'' :=
  ⟨by rw [h.text, h'.text, List.append_assoc], h'.unit.trans h.unit⟩

/-- The header of a class declares it. -/
theorem names_openClass (s : Reading) (c : String) :
    (s.openClass c).names = { s.names with declared := insert c s.names.declared } := by
  have hd : ∀ x, (s.openClass c).declares x = true ↔ x = c ∨ s.declares x = true := by
    intro x
    simp only [openClass, declares, List.any_cons, Bool.or_eq_true, beq_iff_eq]
    exact or_congr eq_comm Iff.rfl
  have hf : ∀ x, (s.openClass c).finishes x = s.finishes x := by
    intro x
    simp [openClass, finishes]
  simp only [names, ClassNames.mk.injEq]
  constructor
  · ext x
    exact hd x
  · ext x
    show (s.openClass c).finishes x = true ↔ _
    rw [hf]
    rfl

/-- The end of a declared class finishes it. -/
theorem names_closeClass {s : Reading} {c : String} (h : c ∈ s.names.declared) :
    (s.closeClass c).names = { s.names with finished := insert c s.names.finished } := by
  have hd : ∀ x, (s.closeClass c).declares x = s.declares x := by
    intro x
    simp only [closeClass, declares, List.any_map, Function.comp_def]
    congr 1
    funext d
    by_cases hc : d.name == c
    · rw [if_pos hc, eq_of_beq hc]
    · rw [if_neg hc]
  have hf : ∀ x, (s.closeClass c).finishes x = true ↔ x = c ∨ s.finishes x = true := by
    intro x
    simp only [closeClass, finishes, List.any_map, List.any_eq_true, Function.comp_def]
    constructor
    · rintro ⟨d, hm, hx⟩
      by_cases hc : d.name == c
      · rw [if_pos hc, Bool.and_true] at hx
        exact .inl (eq_of_beq hx).symm
      · rw [if_neg hc] at hx
        exact .inr ⟨d, hm, hx⟩
    · rintro (rfl | ⟨d, hm, hx⟩)
      · obtain ⟨d, hm, hx⟩ := List.any_eq_true.1 h
        exact ⟨d, hm, by simp [hx]⟩
      · refine ⟨d, hm, ?_⟩
        by_cases hc : d.name == c
        · rw [if_pos hc, Bool.and_true]
          rw [Bool.and_eq_true] at hx
          rw [← eq_of_beq hx.1, eq_of_beq hc]
          exact beq_self_eq_true c
        · rw [if_neg hc]
          exact hx
  simp only [names, ClassNames.mk.injEq]
  constructor
  · ext x
    show (s.closeClass c).declares x = true ↔ _
    rw [hd]
    rfl
  · ext x
    exact hf x

end Reading

namespace Parser

variable {α : Type}

/-! ### Statements that end with their line -/

/-- Whatever `p` gives is a statement, with `before` in front and the end of the line behind. -/
abbrev SimpleSound (before : List TokenKind) (p : Parser Node) : Prop :=
  Sound p fun unit known n w => ∀ a : ClassNames, a.declared = known →
    Writes unit a (.statement n.bare) (before ++ w ++ [.newline]) a

section

variable {bound : Nat}

theorem test_sound : SoundAt (test bound) .disjunction := expression_sound bound .test

theorem tests_sound (m : Nat) :
    Sound (commaList (test bound) m) fun unit known ns w =>
      ∃ items : List (List TokenKind × Node), ns.map Node.bare = items.map Prod.snd ∧
        w = commas (items.map Prod.fst) ∧
        ∀ p ∈ items, Spells unit known (.expr .disjunction p.2) p.1 := by
  intro s ns s' hs
  obtain ⟨w, ht, items, -, rfl, rfl, hall⟩ := commaList_sound test_sound m s ns s' hs
  refine ⟨_, ht, bareItems items, ?_, ?_, spells_bareItems hall⟩
  · rw [snd_bareItems]
  · rw [fst_bareItems]

theorem returned_sound (start : Span) : SimpleSound [.keyword .kReturn] (returned bound start) := by
  intro s n s' hs
  unfold returned at hs
  rw [bind_of_ok (nextIs_run _ s)] at hs
  by_cases hn : s.next.kind = .newline
  · rw [decide_eq_true hn, if_pos rfl] at hs
    cases hs
    refine ⟨[], .refl s, ?_⟩
    rintro a -
    simp only [Node.bare]
    exact .retNone
  · rw [decide_eq_false hn, if_neg (by simp)] at hs
    obtain ⟨e, s₁, he, hs⟩ := bind_eq_ok.1 hs
    cases hs
    obtain ⟨w, ht, hsp⟩ := test_sound _ _ _ he
    refine ⟨w, ht, ?_⟩
    rintro a ha
    rw [← ha] at hsp
    simp only [Node.bare]
    exact .ret hsp

theorem lineArguments_sound {s s' : Reading} {ns : List Node}
    (hs : lineArguments bound s = .ok (some ns, s')) :
    ∃ w, s.Took w s' ∧ Spells s.unit s.names.declared (.args (ns.map Node.bare)) w := by
  unfold lineArguments at hs
  split at hs
  · rename_i ns' s₁ hp
    split at hs
    · cases hs
      obtain ⟨w, ht, items, rfl, rfl, hall⟩ :=
        parenthesized_sound test_sound bound _ _ _ hp
      refine ⟨_, ht, ?_⟩
      have := Spells.args (bareItems items) (spells_bareItems hall)
      rwa [fst_bareItems, snd_bareItems] at this
    · cases hs
  · cases hs

theorem lineArguments_none {s s' : Reading} (hs : lineArguments bound s = .ok (none, s')) :
    s' = s := by
  unfold lineArguments at hs
  split at hs
  · split at hs
    · cases hs
    · cases hs
      rfl
  · cases hs
    rfl

theorem printed_sound (start : Span) : SimpleSound [.keyword .kPrint] (printed bound start) := by
  intro s n s' hs
  unfold printed at hs
  obtain ⟨found, s₁, hl, hp⟩ := bind_eq_ok.1 hs
  cases found with
  | some ns =>
    obtain ⟨w, ht, hsp⟩ := lineArguments_sound hl
    cases hp
    refine ⟨w, ht, ?_⟩
    rintro a ha
    rw [← ha] at hsp
    simp only [Node.bare]
    exact .printCall hsp
  | none =>
    obtain rfl := lineArguments_none hl
    dsimp only at hp
    rw [bind_of_ok (nextIs_run _ s₁)] at hp
    by_cases hn : s₁.next.kind = .newline
    · rw [decide_eq_true hn, if_pos rfl] at hp
      cases hp
      refine ⟨[], .refl _, ?_⟩
      rintro a -
      simp only [Node.bare]
      exact .print [] (by simp)
    · rw [decide_eq_false hn, if_neg (by simp)] at hp
      obtain ⟨ns, s₂, hc, hp⟩ := bind_eq_ok.1 hp
      cases hp
      obtain ⟨w, ht, items, hns, rfl, hall⟩ := tests_sound bound _ _ _ hc
      refine ⟨_, ht, ?_⟩
      rintro a ha
      rw [← ha] at hall
      simp only [Node.bare]
      rw [hns]
      exact .print items hall

theorem assignment_sound : SimpleSound [] (assignment bound) := by
  intro s n s' hs
  unfold assignment at hs
  rw [bind_of_ok (peek_run s)] at hs
  obtain ⟨path, s₁, hp, h₁⟩ := bind_eq_ok.1 hs
  obtain ⟨_, s₂, he, h₂⟩ := bind_eq_ok.1 h₁
  obtain ⟨value, s₃, hv, h₃⟩ := bind_eq_ok.1 h₂
  obtain ⟨heq, rfl⟩ := expect_eq_ok.1 he
  obtain ⟨hpath, hne⟩ := dottedName_sound bound hp
  obtain ⟨w, ht, hsp⟩ := test_sound _ _ _ hv
  have hone := hpath.concat heq (by simp)
  rw [hone.unit, hone.names] at hsp
  clear hs h₁ h₂
  split at h₃
  · exact absurd rfl hne
  · rename_i x
    obtain ⟨rfl, rfl⟩ := pure_eq_ok.1 h₃
    refine ⟨_, hone.trans ht, ?_⟩
    rintro a ha
    rw [← ha] at hsp
    simp only [Node.bare]
    have := Writes.assign (x := x) hsp
    simpa using this
  · rename_i hlong
    obtain ⟨rfl, rfl⟩ := pure_eq_ok.1 h₃
    refine ⟨_, hone.trans ht, ?_⟩
    rintro a ha
    rw [← ha] at hsp
    have hpre : path.dropLast ≠ [] := by
      intro h0
      have hlen := congrArg List.length h0
      rw [List.length_dropLast, List.length_nil] at hlen
      have hpos := List.length_pos_iff.2 hne
      obtain ⟨x, rfl⟩ := List.length_eq_one_iff.1 (by omega : path.length = 1)
      exact hlong x rfl
    simp only [Node.bare]
    have := Writes.setField (f := path.getLastD "") hpre hsp
    rw [dropLast_concat_getLastD hne] at this
    simpa using this

theorem simple_sound : SimpleSound [] (simple bound) := by
  intro s n s' hs
  unfold simple at hs
  rw [bind_of_ok (peek_run s)] at hs
  by_cases hr : s.next.kind = .keyword .kReturn
  · rw [bind_of_ok (accept_of_next hr)] at hs
    obtain ⟨w, ht, hw⟩ := returned_sound _ _ _ _ hs
    have hone := Reading.Took.advance hr (by simp)
    rw [hone.unit, hone.names] at hw
    exact ⟨_, hone.trans ht, hw⟩
  rw [bind_of_ok (accept_of_ne hr), if_neg (by simp)] at hs
  by_cases hp : s.next.kind = .keyword .kPrint
  · rw [bind_of_ok (accept_of_next hp)] at hs
    obtain ⟨w, ht, hw⟩ := printed_sound _ _ _ _ hs
    have hone := Reading.Took.advance hp (by simp)
    rw [hone.unit, hone.names] at hw
    exact ⟨_, hone.trans ht, hw⟩
  rw [bind_of_ok (accept_of_ne hp), if_neg (by simp)] at hs
  change (if isAssignment s.rest then _ else _ : Parser Node) s = _ at hs
  split at hs
  · exact assignment_sound s n s' hs
  · obtain ⟨w, ht, hsp⟩ := test_sound s n s' hs
    refine ⟨w, ht, ?_⟩
    rintro a ha
    rw [← ha] at hsp
    exact .expr hsp

end

/-! ### Blocks -/

theorem parameters_withoutSelf (written : List String) :
    Parameters written (withoutSelf written) := by
  cases written with
  | nil => exact .withoutSelf (by simp)
  | cons x xs =>
    show Parameters (x :: xs) (if x = selfName then xs else x :: xs)
    by_cases hx : x = selfName
    · subst hx
      rw [if_pos rfl]
      exact .withSelf xs
    · rw [if_neg hx]
      exact .withoutSelf (by simpa using hx)

/-- Whatever `p` gives has the text that was taken as one of its texts in the sense of `P`, between
the class names before it and those behind it. -/
def Written (p : Parser α) (P : Nat → ClassNames → α → List TokenKind → ClassNames → Prop) : Prop :=
  ∀ s a s', p s = .ok (a, s') → ∃ w, s.Passed w s' ∧ P s.unit s.names a w s'.names

/-- Whatever `p` gives is a statement. -/
abbrev StatementSound (p : Parser Node) : Prop :=
  Written p fun unit a n w b => Writes unit a (.statement n.bare) w b

theorem names_sound (m : Nat) :
    Sound (parenthesized expectName m) fun _ _ xs w =>
      w = parens (commas (xs.map fun x => [.name x])) := by
  have hname : Sound expectName fun _ _ x w => w = [.name x] := by
    intro s x s' hs
    obtain ⟨hx, rfl⟩ := expectName_eq_ok.1 hs
    exact ⟨_, .advance hx (by simp), rfl⟩
  intro s xs s' hs
  obtain ⟨w, ht, items, rfl, rfl, hall⟩ := parenthesized_sound hname m s xs s' hs
  refine ⟨_, ht, ?_⟩
  dsimp only
  rw [List.map_map]
  exact congrArg (fun ws => parens (commas ws)) (List.map_congr_left hall)

theorem parentClass_sound {s s' : Reading} {parent : Option ClassId}
    (hs : parentClass s = .ok (parent, s')) :
    ∃ p : Option String, parent = p.map (ClassId.mk s.unit) ∧
      s.Took ((p.map fun x => parens [.name x]).getD []) s' ∧
      ∀ x ∈ p, x ∈ s.names.finished := by
  unfold parentClass at hs
  by_cases hb : s.next.kind = .char '('
  · rw [bind_of_ok (accept_of_next hb), if_pos rfl] at hs
    obtain ⟨x, s₁, he, hs⟩ := bind_eq_ok.1 hs
    obtain ⟨hx, rfl⟩ := expectName_eq_ok.1 he
    change (if s.advance.advance.finishes x then _ else _ : Parser (Option ClassId)) _ = _ at hs
    split at hs
    · rename_i hf
      obtain ⟨_, s₂, he, hs⟩ := bind_eq_ok.1 hs
      obtain ⟨hc, rfl⟩ := expect_eq_ok.1 he
      cases hs
      have hopen := Reading.Took.cons hb (by simp) (.advance hx (by simp))
      have ht := hopen.concat hc (by simp)
      refine ⟨some x, ?_, ht, ?_⟩
      · rw [Option.map_some]
        show some (ClassId.mk s.advance.advance.advance.unit x) = _
        rw [ht.unit]
      · rintro y ⟨⟩
        rw [← hopen.names]
        exact hf
    · cases hs
  · rw [bind_of_ok (accept_of_ne hb), if_neg (by simp)] at hs
    cases hs
    exact ⟨none, rfl, .refl s, by simp⟩

/-- Items are put together as `Q` puts them together, and if the bound is not used up, they end where
they should. -/
theorem manyUntil_written {item : Parser α}
    {P : Nat → ClassNames → α → List TokenKind → ClassNames → Prop}
    {Q : Nat → ClassNames → List α → List TokenKind → ClassNames → Prop}
    (h : Written item P) (pos : ∀ {u a x w b}, P u a x w b → 0 < w.length)
    (nil : ∀ u a, Q u a [] [] a)
    (cons : ∀ {u a b d x xs v w}, P u a x v b → Q u b xs w d → Q u a (x :: xs) (v ++ w) d)
    (stop : TokenKind → Bool) (m : Nat) {s s' : Reading} {xs : List α}
    (hs : manyUntil stop item m s = .ok (xs, s')) :
    ∃ w, s.Passed w s' ∧ Q s.unit s.names xs w s'.names ∧
      (stop s'.next.kind = true ∨ m ≤ w.length) := by
  induction m generalizing s xs with
  | zero =>
    obtain ⟨rfl, rfl⟩ := pure_eq_ok.1 hs
    exact ⟨[], (Reading.Took.refl _).passed, nil _ _, .inr (Nat.zero_le _)⟩
  | succ m ih =>
    unfold manyUntil at hs
    rw [bind_of_ok (peek_run s)] at hs
    by_cases hk : stop s.next.kind = true
    · rw [if_pos hk] at hs
      obtain ⟨rfl, rfl⟩ := pure_eq_ok.1 hs
      exact ⟨[], (Reading.Took.refl _).passed, nil _ _, .inl hk⟩
    · rw [if_neg hk] at hs
      obtain ⟨x, s₁, hx, h₁⟩ := bind_eq_ok.1 hs
      obtain ⟨ys, s₂, hy, h₂⟩ := bind_eq_ok.1 h₁
      obtain ⟨rfl, rfl⟩ := pure_eq_ok.1 h₂
      obtain ⟨v, hv, hP⟩ := h _ _ _ hx
      obtain ⟨w, hw, hQ, hend⟩ := ih hy
      have hlen := pos hP
      rw [hv.unit] at hQ
      refine ⟨v ++ w, hv.trans hw, cons hP hQ, hend.imp_right fun hm => ?_⟩
      rw [List.length_append]
      omega

section

variable {bound : Nat} {stmt : Parser Node} (h : StatementSound stmt)
include h

theorem statements_written (stop : TokenKind → Bool) (m : Nat) {s s' : Reading} {ns : List Node}
    (hs : manyUntil stop stmt m s = .ok (ns, s')) :
    ∃ w, s.Passed w s' ∧ Writes s.unit s.names (.statements (ns.map Node.bare)) w s'.names ∧
      (stop s'.next.kind = true ∨ m ≤ w.length) :=
  manyUntil_written (Q := fun u a ns w b => Writes u a (.statements (ns.map Node.bare)) w b) h
    Writes.length_pos (fun _ _ => .noStatements) .statements stop m hs

theorem suite_written :
    Written (suite bound stmt) fun unit a n w b =>
      ∃ ns, n.bare = .block {} ns ∧ Writes unit a (.suite ns) w b := by
  intro s n s' hs
  unfold suite at hs
  obtain ⟨_, s₁, he, hs⟩ := bind_eq_ok.1 hs
  obtain ⟨hnew, rfl⟩ := expect_eq_ok.1 he
  rw [bind_of_ok (peek_run _)] at hs
  obtain ⟨_, s₂, he, hs⟩ := bind_eq_ok.1 hs
  obtain ⟨hin, rfl⟩ := expect_eq_ok.1 he
  obtain ⟨ns, s₃, hm, hs⟩ := bind_eq_ok.1 hs
  obtain ⟨_, s₄, he, hs⟩ := bind_eq_ok.1 hs
  obtain ⟨hout, rfl⟩ := expect_eq_ok.1 he
  cases hs
  obtain ⟨w, hw, hwrites, -⟩ := statements_written h endsBlock bound hm
  have hopen := Reading.Took.cons hnew (by simp) (.advance hin (by simp))
  have hclose := Reading.Took.advance hout (by simp)
  rw [hopen.unit, hopen.names, ← hclose.names] at hwrites
  exact ⟨_, hopen.passed.trans (hw.trans hclose.passed), ns.map Node.bare, by rw [Node.bare],
    .suite hwrites⟩

theorem conditional_written : StatementSound (conditional bound stmt) := by
  intro s n s' hs
  unfold conditional at hs
  rw [bind_of_ok (peek_run s)] at hs
  obtain ⟨_, s₁, he, hs⟩ := bind_eq_ok.1 hs
  obtain ⟨hif, rfl⟩ := expect_eq_ok.1 he
  obtain ⟨c, s₂, hc, hs⟩ := bind_eq_ok.1 hs
  obtain ⟨_, s₃, he, hs⟩ := bind_eq_ok.1 hs
  obtain ⟨hcolon, rfl⟩ := expect_eq_ok.1 he
  obtain ⟨yes, s₄, hy, hs⟩ := bind_eq_ok.1 hs
  obtain ⟨u, hu, hcond⟩ := test_sound _ _ _ hc
  obtain ⟨v, hv, ns, hyes, hbody⟩ := suite_written h _ _ _ hy
  have hhead := Reading.Took.advance hif (by simp)
  have hline := hhead.trans (hu.concat hcolon (by simp))
  rw [hhead.unit, hhead.names] at hcond
  rw [hline.unit, hline.names] at hbody
  by_cases helse : s₄.next.kind = .keyword .kElse
  · rw [bind_of_ok (accept_of_next helse), if_pos rfl] at hs
    obtain ⟨_, s₅, he, hs⟩ := bind_eq_ok.1 hs
    obtain ⟨hcolon', rfl⟩ := expect_eq_ok.1 he
    obtain ⟨no, s₆, hn, hs⟩ := bind_eq_ok.1 hs
    cases hs
    obtain ⟨w, hw, ms, hno, hother⟩ := suite_written h _ _ _ hn
    have hmid := Reading.Took.cons helse (by simp) (.advance hcolon' (by simp))
    have hunit := (hline.passed.trans hv).unit
    rw [hmid.unit, hmid.names, hunit] at hother
    refine ⟨_, hline.passed.trans (hv.trans (hmid.passed.trans hw)), ?_⟩
    simp only [Node.bare, hyes, hno]
    have := Writes.ifElse hcond hbody hother
    simpa using this
  · rw [bind_of_ok (accept_of_ne helse), if_neg (by simp)] at hs
    cases hs
    refine ⟨_, hline.passed.trans hv, ?_⟩
    simp only [Node.bare, hyes]
    have := Writes.ifThen hcond hbody
    simpa using this

/-! ### Classes -/

theorem method_written :
    Written (method bound stmt) fun unit a m w b => Writes unit a (.method m.bare) w b := by
  intro s m s' hs
  unfold method at hs
  rw [bind_of_ok (peek_run s)] at hs
  obtain ⟨_, s₁, he, hs⟩ := bind_eq_ok.1 hs
  obtain ⟨hdef, rfl⟩ := expect_eq_ok.1 he
  obtain ⟨x, s₂, he, hs⟩ := bind_eq_ok.1 hs
  obtain ⟨hx, rfl⟩ := expectName_eq_ok.1 he
  obtain ⟨params, s₃, hp, hs⟩ := bind_eq_ok.1 hs
  obtain ⟨_, s₄, he, hs⟩ := bind_eq_ok.1 hs
  obtain ⟨hcolon, rfl⟩ := expect_eq_ok.1 he
  obtain ⟨body, s₅, hb, hs⟩ := bind_eq_ok.1 hs
  cases hs
  obtain ⟨u, hu, rfl⟩ := names_sound _ _ _ _ hp
  obtain ⟨w, hw, ns, hbody, hwrites⟩ := suite_written h _ _ _ hb
  have hhead := Reading.Took.cons hdef (by simp) (.advance hx (by simp))
  have hline := hhead.trans (hu.concat hcolon (by simp))
  rw [hline.unit, hline.names] at hwrites
  refine ⟨_, hline.passed.trans hw, ?_⟩
  simp only [MethodOf.bare, Node.bare, hbody]
  have := Writes.method (m := x) (parameters_withoutSelf params) hwrites
  simpa using this

theorem methods_written (stop : TokenKind → Bool) (m : Nat) {s s' : Reading} {ms : List Method}
    (hs : manyUntil stop (method bound stmt) m s = .ok (ms, s')) :
    ∃ w, s.Passed w s' ∧ Writes s.unit s.names (.methods (ms.map MethodOf.bare)) w s'.names := by
  obtain ⟨w, hw, hwrites, -⟩ :=
    manyUntil_written (Q := fun u a ms w b => Writes u a (.methods (ms.map MethodOf.bare)) w b)
      (method_written h) Writes.method_pos (fun _ _ => .noMethods) .methods stop m hs
  exact ⟨w, hw, hwrites⟩

theorem classBody_written {c : String} {start : Span} {s s' : Reading} {n : Node}
    (hfresh : c ∉ s.names.declared) (hs : classBody bound stmt start c s = .ok (n, s')) :
    ∃ w, s.Passed w s' ∧
      Writes s.unit s.names (.statement n.bare) (.keyword .kClass :: .name c :: w) s'.names := by
  unfold classBody at hs
  obtain ⟨parent, s₁, hp, hs⟩ := bind_eq_ok.1 hs
  obtain ⟨_, s₂, he, hs⟩ := bind_eq_ok.1 hs
  obtain ⟨hcolon, rfl⟩ := expect_eq_ok.1 he
  obtain ⟨_, s₃, he, hs⟩ := bind_eq_ok.1 hs
  obtain ⟨hnew, rfl⟩ := expect_eq_ok.1 he
  obtain ⟨_, s₄, he, hs⟩ := bind_eq_ok.1 hs
  obtain ⟨hin, rfl⟩ := expect_eq_ok.1 he
  obtain ⟨_, t, ho, hs⟩ := bind_eq_ok.1 hs
  cases ho
  obtain ⟨first, s₅, hf, hs⟩ := bind_eq_ok.1 hs
  obtain ⟨others, s₆, hm, hs⟩ := bind_eq_ok.1 hs
  obtain ⟨_, s₇, he, hs⟩ := bind_eq_ok.1 hs
  obtain ⟨hout, rfl⟩ := expect_eq_ok.1 he
  obtain ⟨_, t, ho, hs⟩ := bind_eq_ok.1 hs
  cases ho
  cases hs
  obtain ⟨p, rfl, hparent, hknown⟩ := parentClass_sound hp
  have hline := hparent.trans ((Reading.Took.advance hcolon (by simp)).trans
    (.cons hnew (by simp) (.advance hin (by simp))))
  obtain ⟨u, hu, hfirst⟩ := method_written h _ _ _ hf
  obtain ⟨v, hv, hothers⟩ := methods_written h endsBlock bound hm
  have hclose := Reading.Took.advance hout (by simp)
  -- the body is written behind the name of the class, which the header has declared
  have hopened : (s₁.advance.advance.advance.openClass c).unit = s.unit := hline.unit
  have hbody := Writes.methods hfirst (hu.unit ▸ hothers)
  rw [hopened, ← hclose.names, Reading.names_openClass, hline.names] at hbody
  have hmem : c ∈ s₆.advance.names.declared := hbody.declared_subset (Set.mem_insert c _)
  have hinner : s₁.advance.advance.advance.Passed u s₅ := ⟨hu.text, hu.unit⟩
  have hpassed := hline.passed.trans (hinner.trans (hv.trans hclose.passed))
  have hunit : (s₆.advance.closeClass c).unit = s.unit := hpassed.unit
  refine ⟨_, ⟨hpassed.text, hunit⟩, ?_⟩
  rw [Node.bare_classDef, Reading.names_closeClass hmem, hunit]
  have := Writes.classDef hfresh hknown hbody (List.cons_ne_nil _ _)
  simpa using this

theorem classDefinition_written : StatementSound (classDefinition bound stmt) := by
  intro s n s' hs
  unfold classDefinition at hs
  rw [bind_of_ok (peek_run s)] at hs
  obtain ⟨_, s₁, he, hs⟩ := bind_eq_ok.1 hs
  obtain ⟨hclass, rfl⟩ := expect_eq_ok.1 he
  obtain ⟨c, s₂, he, hs⟩ := bind_eq_ok.1 hs
  obtain ⟨hc, rfl⟩ := expectName_eq_ok.1 he
  change (if s.advance.advance.declares c then _ else _ : Parser Node) _ = _ at hs
  split at hs
  · cases hs
  · rename_i hfresh
    obtain ⟨w, hw, hwrites⟩ := classBody_written h hfresh hs
    have hhead := Reading.Took.cons hclass (by simp) (.advance hc (by simp))
    rw [hhead.unit, hhead.names] at hwrites
    exact ⟨_, hhead.passed.trans hw, hwrites⟩

/-! ### All statements -/

theorem statementOver_written : StatementSound (statementOver bound stmt) := by
  intro s n s' hs
  unfold statementOver at hs
  rw [bind_of_ok (peek_run s)] at hs
  obtain ⟨p, hp, hs⟩ : ∃ p : Parser Node, _ = p ∧ p s = .ok (n, s') := ⟨_, rfl, hs⟩
  split at hp
  · subst hp
    exact classDefinition_written h s n s' hs
  · subst hp
    exact conditional_written h s n s' hs
  · subst hp
    cases hs
  · subst hp
    obtain ⟨m, s₁, hm, hs⟩ := bind_eq_ok.1 hs
    obtain ⟨_, s₂, he, hs⟩ := bind_eq_ok.1 hs
    obtain ⟨hnew, rfl⟩ := expect_eq_ok.1 he
    obtain ⟨rfl, rfl⟩ := pure_eq_ok.1 hs
    obtain ⟨w, ht, hwrites⟩ := simple_sound _ _ _ hm
    have hend := ht.concat hnew (by simp)
    refine ⟨_, hend.passed, ?_⟩
    rw [hend.names]
    exact hwrites _ rfl

end

/-- Whatever is read as a statement is one. -/
theorem statement_sound (n : Nat) : StatementSound (statement n) := by
  induction n with
  | zero =>
    intro s n s' hs
    cases hs
  | succ n ih => exact statementOver_written ih

/-- The statements of a program are read up to its end: at the end mark and at the end of the bound, no token is
left. -/
theorem statements_end {s s' : Reading} {ns : List Node} (heof : .eof ∉ s.kinds)
    (hs : manyUntil (· = .eof) (statement s.rest.length) s.rest.length s = .ok (ns, s')) :
    Writes s.unit s.names (.statements (ns.map Node.bare)) s.kinds s'.names ∧ s'.kinds = [] := by
  obtain ⟨w, hw, hwrites, hend⟩ := statements_written (statement_sound _) _ _ hs
  have hlen : s.rest.length = w.length + s'.kinds.length := by
    have := congrArg List.length hw.text
    rw [List.length_append] at this
    rw [← this, Reading.kinds, List.length_map]
  have hdone : s'.kinds = [] := by
    obtain hstop | hbound := hend
    · rw [decide_eq_true_iff] at hstop
      cases hk : s'.kinds with
      | nil => rfl
      | cons k v =>
        rw [Reading.next_kind_of_cons hk] at hstop
        refine absurd ?_ heof
        rw [hw.text, hk, hstop]
        simp
    · exact List.eq_nil_of_length_eq_zero (by omega)
  rw [hw.text, hdone, List.append_nil]
  exact ⟨hwrites, rfl⟩

/-- A program that is read is one, from its first token to its last. -/
theorem program_sound {s s' : Reading} {n : Node} (heof : .eof ∉ s.kinds)
    (hs : program s.rest.length s = .ok (n, s')) :
    ∃ ns, n.bare = .block {} ns ∧ Writes s.unit s.names (.statements ns) s.kinds s'.names := by
  unfold program at hs
  rw [bind_of_ok (peek_run s)] at hs
  obtain ⟨ns, s₁, hm, hs⟩ := bind_eq_ok.1 hs
  cases hs
  exact ⟨ns.map Node.bare, by rw [Node.bare], (statements_end heof hm).1⟩

/-- Behind a program that is read no token is left. -/
theorem program_end {s s' : Reading} {n : Node} (heof : .eof ∉ s.kinds)
    (hs : program s.rest.length s = .ok (n, s')) : s'.kinds = [] := by
  unfold program at hs
  rw [bind_of_ok (peek_run s)] at hs
  obtain ⟨ns, s₁, hm, hs⟩ := bind_eq_ok.1 hs
  cases hs
  exact (statements_end heof hm).2

end Parser

end ClassScript

import ClassScript.Proofs.ExpressionLookahead
import Mathlib.Data.Fintype.EquivFin

/-!
# Statements are read promptly

A reader of statements stops at the first token that no statement goes on with.  Two readers look further
than one token: that of assignments, which is entered when an equals sign is found behind a dotted name, and
that of a `print`, which is tried with parentheses around all arguments first.  The first makes no difference
(`simple_prompt`).  The second does: where the parentheses turn out to be those of the arguments and something
behind is wrong, the line is read once more without them, and `Blames` says nothing (`printed_prompt`).  Main
statement: `program_prompt`.
-/

namespace ClassScript

open Grammar

namespace Grammar

variable {unit : Nat} {a b : ClassNames} {w : List TokenKind}

/-- The texts of clauses of one kind, between the class names `a` and `b`. -/
def Forms {α : Type} (kind : α → Clause) (unit : Nat) (a : ClassNames) (w : List TokenKind)
    (b : ClassNames) : Prop :=
  ∃ x, Writes unit a (kind x) w b

/-- The texts of a statement behind the class names `a`. -/
def IsStatement (unit : Nat) (a : ClassNames) (w : List TokenKind) : Prop :=
  ∃ b, Forms .statement unit a w b

/-- Behind `past` a statement may stand. -/
structure Begun (past : List TokenKind) : Prop where
  clean : Clean past
  mark : past = [] ∨ ∃ p k, past = p ++ [k] ∧ k ∈ [.newline, .indent, .dedent]

theorem Begun.fresh {past : List TokenKind} (h : Begun past) : Fresh past := by
  refine ⟨?_, h.clean⟩
  obtain rfl | ⟨p, k, rfl, hk⟩ := h.mark
  · simp
  · rw [List.getLast?_concat]
    rintro ⟨⟩
    exact absurd hk (by decide)

theorem Begun.cool {past : List TokenKind} (h : Begun past) (k : TokenKind) : Cool past k := by
  obtain rfl | ⟨p, l, rfl, hl⟩ := h.mark
  · exact cool_nil k
  · refine cool_concat (fun x hx => ?_) k
    subst hx
    simp at hl

theorem begun_nil : Begun [] := ⟨clean_nil, .inl rfl⟩

theorem begun_newline (past : List TokenKind) : Begun (past ++ [.newline]) :=
  ⟨clean_newline past, .inr ⟨past, _, rfl, by simp⟩⟩

theorem Begun.indent {past : List TokenKind} (h : Begun past) : Begun (past ++ [.indent]) :=
  ⟨h.clean.concat (by simp) (by simp), .inr ⟨past, _, rfl, by simp⟩⟩

theorem Begun.dedent {past : List TokenKind} (h : Begun past) : Begun (past ++ [.dedent]) :=
  ⟨h.clean.concat (by simp) (by simp), .inr ⟨past, _, rfl, by simp⟩⟩

/-- Behind the text `w`, whatever it follows, a statement may stand. -/
def Settles (w : List TokenKind) : Prop := ∀ past, Begun (past ++ w)

theorem Settles.append {v : List TokenKind} (h : Settles v) (u : List TokenKind) : Settles (u ++ v) := by
  intro past
  rw [← List.append_assoc]
  exact h _

theorem Settles.cons {v : List TokenKind} (h : Settles v) (k : TokenKind) : Settles (k :: v) :=
  h.append [k]

theorem Settles.dedent {v : List TokenKind} (h : Settles v) : Settles (v ++ [.dedent]) := by
  intro past
  rw [← List.append_assoc]
  exact (h past).dedent

theorem settles_newline : Settles [.newline] := begun_newline

theorem settles_block {v : List TokenKind} (h : v = [] ∨ Settles v) :
    Settles (.newline :: .indent :: v ++ [.dedent]) := by
  refine Settles.dedent ?_
  obtain rfl | h := h
  · intro past
    rw [List.append_cons]
    exact (begun_newline past).indent
  · exact (h.cons _).cons _

theorem Writes.settles {c : Clause} (h : Writes unit a c w b) : w = [] ∨ Settles w := by
  induction h with
  | retNone => exact .inr (settles_newline.cons _)
  | @ifThen _ _ _ _ _ v cond body ih =>
    right
    obtain rfl | ih := ih
    · cases body
    · exact (ih.cons _).append _
  | ifElse cond body other ih ih' =>
    right
    obtain rfl | ih' := ih'
    · cases other
    · exact ((ih'.cons _).cons _).append _
  | classDef fresh known body nonempty ih =>
    right
    rw [List.append_assoc]
    exact (((settles_block ih)).cons _).append _
  | method h suite ih =>
    right
    obtain rfl | ih := ih
    · cases suite
    · exact (ih.cons _).append _
  | suite body ih => exact .inr (settles_block ih)
  | noStatements => exact .inl rfl
  | noMethods => exact .inl rfl
  | statements first rest ih ih' | methods first rest ih ih' =>
    obtain rfl | ih' := ih'
    · rwa [List.append_nil]
    · exact .inr (ih'.append _)
  | _ => exact .inr (settles_newline.append _)

end Grammar

namespace Parser

variable {c N unit : Nat} {known : Set String} {a : ClassNames} {past : List TokenKind} {s : Reading}

/-! ### Lines -/

theorem test_reader (N unit : Nat) (known : Set String) :
    Reader 0 N unit known Fresh (IsExpr unit known .disjunction) fun m => test m :=
  expression_reader N unit known .test

theorem returned_prompt (hat : s.At unit a.declared) (hfresh : Fresh past) (start : Span) :
    Prompt c past s (fun w => IsStatement unit a (.keyword .kReturn :: (w ++ [.newline])))
      fun m => returned m start := by
  refine Prompt.nextIs ?_
  by_cases hn : s.next.kind = .newline
  · simp only [hn, decide_true, if_true]
    exact Prompt.done (a := .ret (start.merge start) (.literal start .none)) (fun _ _ _ => rfl)
      (cool_of_ne (by rw [hn]; simp))
  · simp only [hn, decide_false, Bool.false_eq_true, if_false]
    refine (test_reader _ unit a.declared).bind (Nat.zero_le _) le_rfl hat hfresh ?_
      fun _ _ _ _ _ cool => Prompt.pure cool
    rintro u ⟨n, hn⟩
    exact ⟨[], _, _, by simpa using Writes.ret hn⟩

/-! ### Printing -/

theorem tests_reader (N unit : Nat) (known : Set String) :
    Reader 0 N unit known Fresh (Commas (IsExpr unit known .disjunction))
      fun m => commaList (test m) m :=
  commaList_reader (test_reader N unit known) (items_isExpr unit known)

theorem tests_parenthesized_reader (N unit : Nat) (known : Set String) :
    Reader 0 (N + 1) unit known Clean (Parens (IsExpr unit known .disjunction))
      fun m => parenthesized (test m) m :=
  parenthesized_reader (test_reader N unit known) (items_isExpr unit known)
    fun _ hpast => hpast.fresh_concat (by simp) (by simp) (by simp)

/-- What is read of a `print` whose arguments are not in parentheses. -/
def printedOpen (bound : Nat) (start : Span) : Parser Node := do
  if ← nextIs .newline then
    return .print (← spanFrom start) []
  else
    let args ← commaList (test bound) bound
    return .print (← spanFrom start) args

theorem printed_of_some {m : Nat} {start : Span} {t t' : Reading} {as : List Node}
    (h : lineArguments m t = .ok (some as, t')) :
    printed m start t = .ok (.print (start.merge t'.last) as, t') := by
  unfold printed
  rw [bind_of_ok h]
  rfl

theorem printed_of_none {m : Nat} {start : Span} {t : Reading}
    (h : lineArguments m t = .ok (none, t)) : printed m start t = printedOpen m start t := by
  unfold printed
  rw [bind_of_ok h]
  rfl

/-- Where no parenthesis opens, there are no arguments in parentheses. -/
theorem lineArguments_of_ne {m : Nat} {t : Reading} (h : t.next.kind ≠ .char '(') :
    lineArguments m t = .ok (none, t) := by
  obtain ⟨as, t', hl⟩ | hl := lineArguments_total m t
  · obtain ⟨hp, -⟩ := lineArguments_some.1 hl
    obtain ⟨_, _, he, -⟩ := bind_eq_ok.1 hp
    exact absurd (expect_eq_ok.1 he).1 h
  · exact hl

theorem isStatement_print {w : List TokenKind} (h : Commas (IsExpr unit a.declared .disjunction) w) :
    IsStatement unit a (.keyword .kPrint :: (w ++ [.newline])) := by
  obtain ⟨ws, -, hws, rfl⟩ := h
  obtain ⟨items, rfl, hitems⟩ := exists_items hws
  exact ⟨_, _, .print items hitems⟩

theorem isStatement_printCall {w : List TokenKind}
    (h : Parens (IsExpr unit a.declared .disjunction) w) :
    IsStatement unit a (.keyword .kPrint :: (w ++ [.newline])) := by
  obtain ⟨ns, hns⟩ := exists_args h
  exact ⟨_, _, .printCall hns⟩

/-- Either the arguments in parentheses are those of the line wherever the same tokens follow, or they are
not wherever the same tokens follow up to some place, where they can still be gone on with. -/
theorem lineArguments_cases (hat : s.At unit known) (hclean : Clean past) :
    (∃ as k d, Advances 0 s lineArguments (some as) k d ∧ (s.behind k d).next.kind = .newline) ∨
      ∃ k, k ≤ s.rest.length ∧ (∃ z, Parens (IsExpr unit known .disjunction) (s.kinds.take k ++ z)) ∧
        ∀ t m, t.rest.length ≤ m → s.Agrees (k + 1) t → lineArguments m t = .ok (none, t) := by
  have hreader := tests_parenthesized_reader s.rest.length unit known
  have hnone : ∀ {t m}, (∀ as t', ¬ lineArguments m t = .ok (some as, t')) →
      lineArguments m t = .ok (none, t) := by
    intro t m h
    obtain ⟨as, t', hl⟩ | hl := lineArguments_total m t
    · exact absurd hl (h as t')
    · exact hl
  cases hreader.prompt past s (Nat.le_succ _) hat hclean with
  | @advances as k d h cool =>
    have hnext : ∀ {t}, s.Agrees (k + 1) t → (t.behind k d).next = (s.behind k d).next :=
      fun ht => (ht.behind d).next (by omega)
    by_cases hline : (s.behind k d).next.kind = .newline
    · refine .inl ⟨as, k, d, ⟨h.le, fun t m hm ht => ?_⟩, hline⟩
      exact lineArguments_some.2 ⟨h.run t m hm ht, by rw [hnext ht, hline]⟩
    · refine .inr ⟨k, h.le, ⟨[], ?_⟩, fun t m hm ht => hnone fun as' t' hl => hline ?_⟩
      · obtain ⟨w, ht, hw⟩ := hreader.takes _ s as _ (h.run s _ le_rfl (.refl _ s))
        obtain rfl := List.append_cancel_right (ht.text.symm.trans (s.passed_behind k d).text)
        rw [List.append_nil]
        exact hw hat.unit hat.known
      · obtain ⟨hp, hnew⟩ := lineArguments_some.1 hl
        have := h.run t m hm ht
        rw [hp] at this
        cases this
        rw [← hnext ht, hnew]
  | @fails e k d le completed blames run alike =>
    refine .inr ⟨k, le, completed, fun t m hm ht => hnone fun as t' hl => ?_⟩
    obtain ⟨e', he⟩ := alike t m hm ht
    rw [(lineArguments_some.1 hl).1] at he
    cases he

/-- One expression in parentheses is read as the only argument of a line. -/
theorem parens_read {u v : List TokenKind} (hu : IsExpr unit known .disjunction u) {m : Nat} {t : Reading}
    (hat : t.At unit known) (hm : t.rest.length ≤ m) (ht : t.kinds = parens u ++ .newline :: v) :
    ∃ as t', commaList (test m) m t = .ok (as, t') := by
  obtain ⟨n, hn⟩ := hu
  have hparens : ∀ p ∈ [(parens u, n)], Spells unit known (.expr .disjunction p.2) p.1 := by
    simpa using (Spells.paren hn).loosen (by decide)
  have hlen := congrArg List.length ht
  rw [Reading.length_kinds, List.length_append] at hlen
  have hb : (commas ([(parens u, n)].map Prod.fst)).length ≤ m := by
    rw [List.map_singleton, commas_singleton]
    dsimp only
    omega
  obtain ⟨as, t', hok, -⟩ := tests_read (by simp) hparens hb t (.newline :: v) hat.unit hat.known
    (by rw [ht, List.map_singleton, commas_singleton]) ⟨stops_of_newline rfl, by simp⟩
  exact ⟨as, t', hok⟩

/-- Where the arguments of a line are found in parentheses only, they begin as no expression does, and would
go on as an expression but for the last token that tells this. -/
theorem enumerates_of_error {m : Nat} {t t' : Reading} {as : List Node} {e : SyntaxError}
    (hat : t.At unit known) (hm : t.rest.length ≤ m) (hl : lineArguments m t = .ok (some as, t'))
    (he : commaList (test m) m t = .error e) :
    ∃ v r u y, Enumerates v ∧ t.kinds = v ++ r ∧ IsExpr unit known .disjunction u ∧
      v.dropLast ++ y = parens u ++ [.newline] := by
  obtain ⟨hp, hnew⟩ := lineArguments_some.1 hl
  obtain ⟨w, ht, items, -, rfl, hall⟩ := parenthesized_sound test_sound m t as t' hp
  have htext := ht.text
  rw [Reading.kinds_of_next_kind hnew (by simp), parens_append] at htext
  cases items with
  | nil =>
    refine ⟨[.char '(', .char ')'], _, [.number 0], [.number 0, .char ')', .newline], .inl rfl, htext,
      isExpr_number _ _ _, rfl⟩
  | cons p items =>
    obtain ⟨u, n⟩ := p
    have hu := hall _ (.head _)
    rw [hat.unit, hat.known] at hu
    by_cases hi : items = []
    · -- one expression in parentheses is an expression
      subst hi
      rw [List.map_singleton, commas_singleton] at htext
      obtain ⟨bs, t'', hok⟩ := parens_read ⟨_, hu⟩ hat hm (by rw [htext, parens_append])
      rw [he] at hok
      cases hok
    · rw [List.map_cons, commas_cons (by simpa using hi)] at htext
      refine ⟨.char '(' :: (u ++ [.char ',']),
        commas (items.map Prod.fst) ++ .char ')' :: .newline :: t'.advance.kinds, u,
        [.char ')', .newline], .inr ⟨unit, known, _, u, rfl, hu⟩, ?_, ⟨_, hu⟩, ?_⟩
      · rw [htext]
        simp
      · rw [← List.cons_append, List.dropLast_concat]
        simp [parens]

/-- Where the arguments of a line may be read without their parentheses, these belong to the first one. -/
theorem lineArguments_length_le {m : Nat} {t t₁ t₂ : Reading} {as bs : List Node}
    (hm : t.rest.length ≤ m) (hl : lineArguments m t = .ok (some as, t₁))
    (hb : commaList (test m) m t = .ok (bs, t₂)) : t₂.rest.length ≤ t₁.rest.length := by
  obtain ⟨hp, hnew⟩ := lineArguments_some.1 hl
  have hopen : t.next.kind = .char '(' := by
    obtain ⟨_, _, he, -⟩ := bind_eq_ok.1 hp
    exact (expect_eq_ok.1 he).1
  obtain ⟨w, ht, items, hne, -, rfl, hall⟩ := commaList_sound test_sound m t bs t₂ hb
  obtain ⟨⟨w, n⟩, items, rfl⟩ := List.exists_cons_of_ne_nil hne
  have hfirst := hall _ (.head _)
  obtain ⟨y, htail⟩ : ∃ y, commas (((w, n) :: items).map Prod.fst) = w ++ y := by
    by_cases hi : items = []
    · exact ⟨[], by simp [hi]⟩
    · exact ⟨_, by rw [List.map_cons, commas_cons (by simpa using hi)]⟩
  have htext := ht.text
  rw [htail, List.append_assoc] at htext
  obtain ⟨k, v, hv, -⟩ := hfirst.begins
  dsimp only at hv hfirst
  obtain rfl : k = .char '(' := by
    rw [hv] at htext
    rw [← hopen, Reading.next_kind_of_cons htext]
  rw [hv] at hfirst
  obtain ⟨e, u, rest, hsplit, hsp⟩ := hfirst.paren_prefix
  rw [hv, hsplit, List.append_assoc] at htext
  have harg : Spells t.unit t.names.declared (.args [e]) (parens u) := by
    have := Spells.args [(u, e)] (by simpa using hsp)
    simpa using this
  have hlen := congrArg List.length htext
  simp only [Reading.length_kinds, List.length_append] at hlen
  have hb : (parens u).length ≤ m := by omega
  obtain ⟨as', t', hp', ht', -⟩ := parenthesized_test_reads harg hb t _ rfl rfl htext trivial
  rw [hp] at hp'
  cases hp'
  have := ht'.length
  omega

/-- Where no expressions are read up to the token behind `j` others, and yet arguments in parentheses may
follow, the parentheses have already begun as no expression does. -/
theorem exists_enumerates {j m : Nat} {t t' : Reading} {as : List Node} (hat : s.At unit known)
    (alike : ∀ t m, t.rest.length ≤ m → s.Agrees (j + 1) t → ∃ e, commaList (test m) m t = .error e)
    (hm : t.rest.length ≤ m) (ht : s.Agrees (j + 1) t) (hl : lineArguments m t = .ok (some as, t')) :
    ∃ v, Enumerates v ∧ v <+: s.kinds.take (j + 1) := by
  obtain ⟨e, he⟩ := alike t m hm ht
  obtain ⟨v, r, u, y, hv, hvr, hu, hy⟩ := enumerates_of_error (hat.agrees ht) hm hl he
  have hlen := congrArg List.length hvr
  rw [Reading.length_kinds, List.length_append] at hlen
  refine ⟨v, hv, ?_⟩
  rw [← ht.kinds, List.prefix_take_iff]
  refine ⟨⟨r, hvr.symm⟩, ?_⟩
  by_contra hlt
  -- the tokens that were looked at would also begin an expression
  obtain ⟨t₁, ht₁, hkinds⟩ := t.exists_agrees (n := v.length - 1) (by omega) y
  rw [hvr, List.take_append_of_le_length (by omega), ← List.dropLast_eq_take, hy] at hkinds
  have htrans := ht.trans (ht₁.mono (by omega))
  obtain ⟨bs, t₂, hok⟩ := parens_read hu (hat.agrees htrans) (Nat.le_refl _) hkinds
  obtain ⟨e₁, he₁⟩ := alike t₁ t₁.rest.length (Nat.le_refl _) htrans
  rw [hok] at he₁
  cases he₁

/-- Where the line is read without its parentheses as it stands, this is so wherever the same tokens follow
as were looked at. -/
theorem lineArguments_none_of_advances {bs : List Node} {j : Nat} {d : List Declared} (hat : s.At unit known)
    (hclean : Clean past) (h : Advances 0 s (fun m => commaList (test m) m) bs j d)
    (hnone : lineArguments s.rest.length s = .ok (none, s)) {t : Reading} {m : Nat}
    (hm : t.rest.length ≤ m) (ht : s.Agrees (j + 1) t) : lineArguments m t = .ok (none, t) := by
  obtain ⟨as, t', hl⟩ | hl := lineArguments_total m t
  · -- the same arguments would have been found at `s`
    exfalso
    have hlen := lineArguments_length_le hm hl (h.run t m hm ht)
    obtain ⟨as', i, d', hi, hline⟩ | ⟨i, -, -, hi⟩ := lineArguments_cases (hat.agrees ht) hclean
    · have hi' := hi.run t m hm (.refl _ t)
      rw [hl] at hi'
      cases hi'
      have hle := hi.le
      rw [Reading.rest_behind, Reading.rest_behind, List.length_drop, List.length_drop] at hlen
      have := hi.run s s.rest.length le_rfl (ht.symm.mono (by omega))
      rw [hnone] at this
      cases this
    · rw [hi t m hm (.refl _ t)] at hl
      cases hl
  · exact hl

/-- Where arguments in parentheses have been taken up to some place, and what begins as no expression does
is among them, the parentheses are those of the `print`. -/
theorem abandoned_of_enumerates {q v : List TokenKind} {j k : Nat} {z : List TokenKind} (hv : Enumerates v)
    (hbegins : v <+: s.kinds.take (j + 1)) (hjk : j < k)
    (hz : Parens (IsExpr unit known .disjunction) (s.kinds.take k ++ z)) :
    Abandoned (q ++ [.keyword .kPrint] ++ s.kinds.take k) := by
  obtain ⟨x, htake⟩ := hbegins.trans (List.take_prefix_take_left (by omega : j + 1 ≤ k))
  obtain ⟨ns, hns⟩ := exists_args hz
  have hline := hns.foreign_not_mem (k := .newline) (by decide)
  rw [← htake] at hline ⊢
  refine ⟨q, v, x, ?_, hv, fun hmem => hline (by simp [hmem])⟩
  rw [List.append_assoc]
  rfl

/-- What is read of a `print` behind which neither the line ends nor arguments in parentheses end it. -/
theorem printed_of_open {m : Nat} {start : Span} {t : Reading} (hne : t.next.kind ≠ .newline)
    (hl : lineArguments m t = .ok (none, t)) :
    printed m start t = (commaList (test m) m >>= fun args => spanFrom start >>= fun span =>
      pure (.print span args) : Parser Node) t := by
  rw [printed_of_none hl, printedOpen, bind_of_ok (nextIs_run _ t), decide_eq_false hne,
    if_neg (by simp)]

/-- Arguments without parentheses around all of them are read promptly where the parentheses have not begun
as no expression does. -/
theorem printedOpen_prompt {q : List TokenKind} {k : Nat} {z : List TokenKind} (hat : s.At unit a.declared)
    (hfresh : Fresh (q ++ [.keyword .kPrint])) (start : Span) (hn : s.next.kind ≠ .newline)
    (hle : k ≤ s.rest.length) (hz : Parens (IsExpr unit a.declared .disjunction) (s.kinds.take k ++ z))
    (hnone : ∀ t m, t.rest.length ≤ m → s.Agrees (k + 1) t → lineArguments m t = .ok (none, t)) :
    Prompt 0 (q ++ [.keyword .kPrint]) s
      (fun w => IsStatement unit a (.keyword .kPrint :: (w ++ [.newline])))
      fun m => printed m start := by
  have hne : ∀ {t n}, s.Agrees (n + 1) t → t.next.kind ≠ .newline := fun ht => by
    rwa [ht.next (Nat.succ_pos _)]
  cases (tests_reader s.rest.length unit a.declared).prompt _ s le_rfl hat hfresh with
  | @advances bs j d h cool =>
    refine .advances (a := .print (start.merge (s.behind j d).last) bs) ⟨h.le, fun t m hm ht => ?_⟩ cool
    have hl := lineArguments_none_of_advances hat hfresh.2 h (hnone s _ le_rfl (.refl _ s)) hm ht
    rw [printed_of_open (hne ht) hl, bind_of_ok (h.run t m hm ht), bind_of_ok (spanFrom_run _ _),
      (Reading.Agrees.behind (n := 1) ht d).last]
    rfl
  | @fails e j d le completed blames run alike =>
    by_cases hslip : ∃ t m as t', t.rest.length ≤ m ∧ s.Agrees (j + 1) t ∧
        lineArguments m t = .ok (some as, t')
    · obtain ⟨t, m, as, t', hm, ht, hl⟩ := hslip
      obtain ⟨v, hv, hbegins⟩ := exists_enumerates hat alike hm ht hl
      have hjk : j < k := by
        by_contra hlt
        rw [hnone t m hm (ht.mono (by omega))] at hl
        cases hl
      refine .fails hle ⟨z, isStatement_printCall hz⟩ (e := e) (d := d)
        (.abandoned (abandoned_of_enumerates hv hbegins hjk hz)) (fun m hm => ?_) fun t m hm ht => ?_
      · rw [printed_of_open hn (hnone s m hm (.refl _ s)), bind_of_error (run m hm)]
      · obtain ⟨e₂, he₂⟩ := alike t m hm (ht.mono (by omega))
        exact ⟨e₂, by rw [printed_of_open (hne ht) (hnone t m hm ht), bind_of_error he₂]⟩
    · have hnot : ∀ {t m}, t.rest.length ≤ m → s.Agrees (j + 1) t →
          lineArguments m t = .ok (none, t) := by
        intro t m hm ht
        obtain ⟨as, t', hl⟩ | hl := lineArguments_total m t
        · exact absurd ⟨t, m, as, t', hm, ht, hl⟩ hslip
        · exact hl
      obtain ⟨y, hy⟩ := completed
      refine .fails le ⟨y, isStatement_print hy⟩ blames (fun m hm => ?_) fun t m hm ht => ?_
      · rw [printed_of_open hn (hnot hm (.refl _ s)), bind_of_error (run m hm)]
      · obtain ⟨e', he⟩ := alike t m hm ht
        exact ⟨e', by rw [printed_of_open (hne ht) (hnot hm ht), bind_of_error he]⟩

/-- A `print` is read promptly, but for one whose arguments in parentheses are not all of the line. -/
theorem printed_prompt {q : List TokenKind} (hat : s.At unit a.declared) (hclean : Clean q)
    (start : Span) :
    Prompt c (q ++ [.keyword .kPrint]) s
      (fun w => IsStatement unit a (.keyword .kPrint :: (w ++ [.newline])))
      fun m => printed m start := by
  refine Prompt.mono (c := 0) ?_ (Nat.zero_le c)
  have hfresh : Fresh (q ++ [.keyword .kPrint]) := hclean.fresh_concat (by simp) (by simp) (by simp)
  obtain ⟨as, k, d, h, hline⟩ | ⟨k, hle, ⟨z, hz⟩, hnone⟩ := lineArguments_cases hat hfresh.2
  · refine .advances (a := .print (start.merge (s.behind k d).last) as) ⟨h.le, fun t m hm ht => ?_⟩
      (cool_of_ne (by rw [hline]; simp))
    rw [printed_of_some (h.run t m hm ht), (Reading.Agrees.behind (n := 1) ht d).last]
  by_cases hn : s.next.kind = .newline
  · refine Prompt.done (a := .print (start.merge s.last) []) (fun t m ht => ?_)
      (cool_of_ne (by rw [hn]; simp))
    have hnew : t.next.kind = .newline := by rw [ht.next (by omega), hn]
    rw [printed_of_none (lineArguments_of_ne (by rw [hnew]; simp)), printedOpen,
      bind_of_ok (nextIs_run _ t), decide_eq_true hnew, if_pos rfl, ← ht.last]
    rfl
  · exact printedOpen_prompt hat hfresh start hn hle hz hnone

/-! ### Assignments -/

theorem moreNames_behind {xs : List String} {m : Nat} (hm : xs.length ≤ m) {t : Reading}
    {v : List TokenKind}
    (ht : t.kinds = (xs.flatMap fun x => [.char '.', .name x]) ++ .char '=' :: v) :
    moreNames m t = .ok (xs, t.behind (2 * xs.length) t.declared) := by
  induction xs generalizing m t with
  | nil =>
    have hd : t.next.kind ≠ .char '.' := Reading.next_kind_ne_of_cons (w := v) ht (by decide)
    cases m with
    | zero => rfl
    | succ m =>
      rw [moreNames, bind_of_ok (nextIs_run _ t), decide_eq_false hd, if_neg (by simp)]
      rfl
  | cons x xs ih =>
    obtain ⟨m, rfl⟩ : ∃ k, m = k + 1 := ⟨m - 1, by rw [List.length_cons] at hm; omega⟩
    obtain ⟨hdot, hin⟩ := took_one (k := .char '.') ht (by simp)
    obtain ⟨hname, hrest⟩ := took_one (k := .name x) hin (by simp)
    have hmore := ih (Nat.le_of_succ_le_succ hm) hrest
    rw [Reading.declared_advance, Reading.declared_advance] at hmore
    rw [moreNames, bind_of_ok (nextIs_run _ t), decide_eq_true (Reading.next_kind_of_cons ht), if_pos rfl,
      bind_of_ok (peekSecond_run t), Reading.ahead_one, Reading.next_kind_of_cons hin]
    dsimp only
    rw [bind_of_ok (skip_run t), bind_of_ok (skip_run _), bind_of_ok hmore]
    rfl

/-- What an assignment makes of its target and its value. -/
def assigned (start : Span) (path : List String) (value : Node) : Parser Node :=
  let span := start.merge value.span
  match path with
  | [] => throw ⟨.invalidAssignmentTarget, start⟩
  | [name] => return .assign span name value
  | _ => return .setField span path.dropLast (path.getLastD "") value

/-- The target of an assignment is taken as it stands. -/
theorem simple_of_assignment {path : List String} (hne : path ≠ []) {m : Nat} {t : Reading}
    {v : List TokenKind} (hm : t.rest.length ≤ m) (ht : t.kinds = pathText path ++ .char '=' :: v) :
    simple m t = (test m >>= assigned t.next.span path : Parser Node)
      (t.behind (2 * path.length) t.declared) := by
  have hassign := isAssignment_iff.2 ⟨path, v, hne, ht⟩
  have hlen := congrArg List.length ht
  have hpath := length_le_pathText path
  rw [Reading.length_kinds, List.length_append, List.length_cons] at hlen
  obtain ⟨x, xs, rfl⟩ := List.exists_cons_of_ne_nil hne
  rw [pathText_cons, List.cons_append] at ht
  obtain ⟨hname, hrest⟩ := took_one ht (by simp)
  have hmore := moreNames_behind (m := m) (by rw [List.length_cons] at hpath; omega) hrest
  have hdotted : dottedName m t = .ok (x :: xs, t.behind (2 * xs.length + 1) t.declared) := by
    rw [dottedName, bind_of_ok (expectName_of_next (Reading.next_kind_of_cons ht)), bind_of_ok hmore,
      Reading.declared_advance]
    rfl
  have heq : (t.behind (2 * xs.length + 1) t.declared).kinds = .char '=' :: v := by
    rw [Reading.kinds_behind, ht, ← List.cons_append]
    exact List.drop_left' (by simp [Nat.mul_comm])
  have hbehind : (t.behind (2 * xs.length + 1) t.declared).advance =
      t.behind (2 * (x :: xs).length) t.declared := by
    rw [← Reading.behind_one, Reading.behind_behind, List.length_cons]
    rfl
  rw [simple_of_not_keyword (Reading.next_kind_ne_of_cons ht (by simp))
    (Reading.next_kind_ne_of_cons ht (by simp)), if_pos hassign, assignment, bind_of_ok (peek_run t),
    bind_of_ok hdotted, bind_of_ok (expect_of_next (Reading.next_kind_of_cons heq)), hbehind]
  rfl

/-- What is read as an expression up to some place is no assignment, if it is none where the same tokens
follow. -/
theorem not_isAssignment_of_agrees {k : Nat} (hs : isAssignment s.rest = false)
    (stops : ∀ u m n u', u.rest.length ≤ m → s.Agrees (k + 1) u → test m u = .ok (n, u') →
      u.rest.length = k + u'.rest.length) {t : Reading} (ht : s.Agrees (k + 1) t) :
    isAssignment t.rest = false := by
  rw [Bool.eq_false_iff]
  intro hassign
  obtain ⟨path, v, hne, hv⟩ := isAssignment_iff.1 hassign
  replace hv : t.kinds = pathText path ++ .char '=' :: v := hv
  have hlen := congrArg List.length hv
  rw [Reading.length_kinds, List.length_append, List.length_cons] at hlen
  by_cases hk : (pathText path).length ≤ k
  · -- the equals sign has been looked at
    obtain ⟨j, rfl⟩ := Nat.exists_eq_add_of_le hk
    have htake := ht.kinds
    rw [hv, Nat.add_assoc, List.take_length_add_append, List.take_succ_cons] at htake
    have hassign' : isAssignment s.rest = true := by
      refine isAssignment_iff.2 ⟨path, v.take j ++ s.kinds.drop ((pathText path).length + (j + 1)), hne, ?_⟩
      show s.kinds = _
      rw [← List.cons_append, ← List.append_assoc, htake, List.take_append_drop]
    rw [hs] at hassign'
    cases hassign'
  · -- the names could as well end their line, and would then be taken as a whole
    obtain ⟨u, hu, hkinds⟩ := t.exists_agrees (n := (pathText path).length) (by omega) [.newline]
    rw [hv, List.take_left] at hkinds
    have hspells : Spells u.unit u.names.declared (.expr .disjunction (.lookup {} path)) (pathText path) :=
      (Spells.lookup hne).loosen (by decide)
    have hlen' := congrArg List.length hkinds
    rw [Reading.length_kinds, List.length_append, List.length_singleton] at hlen'
    have hb : (pathText path).length ≤ u.rest.length := by omega
    obtain ⟨n, u', hok, htook, -⟩ := test_reads hspells hb u _ rfl rfl hkinds (stops_of_newline rfl)
    have := stops u _ n u' le_rfl (ht.trans (hu.mono (by omega))) hok
    have := htook.length
    omega

theorem isStatement_assigned {path : List String} (hne : path ≠ []) {u : List TokenKind}
    (hu : IsExpr unit a.declared .disjunction u) :
    IsStatement unit a (pathText path ++ .char '=' :: (u ++ [.newline])) := by
  obtain ⟨n, hn⟩ := hu
  obtain ⟨p, f, rfl⟩ : ∃ p f, path = p ++ [f] := ⟨_, _, (List.dropLast_concat_getLast hne).symm⟩
  by_cases hp : p = []
  · subst hp
    exact ⟨_, _, by simpa using Writes.assign (x := f) hn⟩
  · exact ⟨_, _, by simpa using Writes.setField (f := f) hp hn⟩

theorem length_pathText {path : List String} (hne : path ≠ []) :
    (pathText path).length + 1 = 2 * path.length := by
  obtain ⟨x, xs, rfl⟩ := List.exists_cons_of_ne_nil hne
  rw [pathText_cons]
  simp [Nat.succ_mul, Nat.mul_comm 2]

theorem assignment_prompt (hat : s.At unit a.declared) (hpast : Begun past)
    (hassign : isAssignment s.rest = true) :
    Prompt c past s (fun w => IsStatement unit a (w ++ [.newline])) fun m => simple m := by
  obtain ⟨path, v, hne, hs⟩ := isAssignment_iff.1 hassign
  replace hs : s.kinds = pathText path ++ .char '=' :: v := hs
  have hlen := congrArg List.length hs
  have hpath := length_pathText hne
  rw [Reading.length_kinds, List.length_append, List.length_cons] at hlen
  have htake : s.kinds.take (2 * path.length) = pathText path ++ [.char '='] := by
    rw [← hpath, hs, List.take_length_add_append]
    rfl
  have htook := s.passed_behind (2 * path.length) s.declared
  rw [htake] at htook
  refine Prompt.enter (j := 2 * path.length) (d := s.declared)
    (G := fun m => test m >>= assigned s.next.span path) (by omega) (fun t m hm ht => ?_) ?_
  · have hkinds := congrArg (List.take (2 * path.length)) ht.kinds
    rw [List.take_take, List.take_take, Nat.min_eq_left (Nat.le_succ _), htake] at hkinds
    have ht' : t.kinds = pathText path ++ .char '=' :: t.kinds.drop (2 * path.length) := by
      conv_lhs => rw [← List.take_append_drop (2 * path.length) t.kinds, hkinds]
      simp
    rw [simple_of_assignment hne (by omega) ht', ht.next (by omega), ht.declared]
  · have hclean : Clean (past ++ pathText path) :=
      hpast.clean.append (foreign_not_mem_pathText (by decide) path)
        (foreign_not_mem_pathText (by decide) path)
    rw [htake, ← List.append_assoc]
    refine (test_reader _ unit a.declared).bind (Nat.zero_le _) le_rfl
      (hat.took ⟨htook.text, htook.unit, rfl⟩) (hclean.fresh_concat (by simp) (by simp) (by simp))
      (fun u hu => ⟨[], by simpa using isStatement_assigned hne hu⟩) fun value w s' _ _ cool => ?_
    obtain ⟨x, xs, rfl⟩ := List.exists_cons_of_ne_nil hne
    cases xs with
    | nil => exact Prompt.pure cool
    | cons y ys => exact Prompt.pure cool

/-- Where a line is an expression it is read promptly, though it is looked through for an equals sign. -/
theorem testLine_prompt (hat : s.At unit a.declared) (hpast : Begun past)
    (hret : s.next.kind ≠ .keyword .kReturn) (hprint : s.next.kind ≠ .keyword .kPrint)
    (hnot : isAssignment s.rest = false) :
    Prompt c past s (fun w => IsStatement unit a (w ++ [.newline])) fun m => simple m := by
  have hif : ∀ {t m}, s.Agrees 1 t → isAssignment t.rest = false → simple m t = test m t := by
    intro t m ht hnot
    rw [← ht.next (by omega)] at hret hprint
    rw [simple_of_not_keyword hret hprint, hnot, if_neg (by simp)]
  cases (test_reader s.rest.length unit a.declared).prompt past s le_rfl hat hpast.fresh with
  | @advances n k d h cool =>
    have hthere := fun {t} => not_isAssignment_of_agrees (k := k) (t := t) hnot fun u m n' u' hm hu hok => by
      have hrun := h.run u m hm hu
      rw [hok] at hrun
      cases hrun
      have := hu.length_le (k := k) (by omega) h.le
      rw [Reading.rest_behind, List.length_drop]
      omega
    refine .advances (a := n) ⟨h.le, fun t m hm ht => ?_⟩ cool
    rw [hif (ht.mono (by omega)) (hthere ht), h.run t m (by omega) ht]
  | @fails e k d le completed blames run alike =>
    have hthere := fun {t} => not_isAssignment_of_agrees (k := k) (t := t) hnot fun u m n' u' hm hu hok => by
      obtain ⟨e', he⟩ := alike u m hm hu
      rw [hok] at he
      cases he
    obtain ⟨z, n, hn⟩ := completed
    refine .fails le ⟨z, _, _, .expr hn⟩ blames (fun m hm => ?_) fun t m hm ht => ?_
    · rw [hif (.refl 1 s) (hthere (.refl _ s)), run m (by omega)]
    · rw [hif (ht.mono (by omega)) (hthere ht)]
      exact alike t m (by omega) ht

/-- A statement that ends with its line is read promptly up to the end of the line. -/
theorem simple_prompt (hat : s.At unit a.declared) (hpast : Begun past) :
    Prompt c past s (fun w => IsStatement unit a (w ++ [.newline])) fun m => simple m := by
  by_cases hret : s.next.kind = .keyword .kReturn
  · refine Prompt.congr (Q := fun m => Parser.skip >>= fun _ => returned m s.next.span) ?_
      fun t m _ ht => ?_
    · exact Prompt.skip hret (by simp) (returned_prompt (hat.took (.advance hret (by simp)))
        (hpast.clean.fresh_concat (by simp) (by simp) (by simp)) _)
    · rw [← ht.next (by omega)] at hret ⊢
      exact simple_of_return (Reading.kinds_of_next_kind hret (by simp))
  by_cases hprint : s.next.kind = .keyword .kPrint
  · refine Prompt.congr (Q := fun m => Parser.skip >>= fun _ => printed m s.next.span) ?_
      fun t m _ ht => ?_
    · exact Prompt.skip hprint (by simp) (printed_prompt (hat.took (.advance hprint (by simp)))
        hpast.clean _)
    · rw [← ht.next (by omega)] at hprint ⊢
      exact simple_of_print (Reading.kinds_of_next_kind hprint (by simp))
  by_cases hassign : isAssignment s.rest = true
  · exact assignment_prompt hat hpast hassign
  · exact testLine_prompt hat hpast hret hprint (Bool.eq_false_iff.2 hassign)

/-- A line is read promptly. -/
theorem line_prompt (hpast : Begun past) :
    Prompt c past s (IsStatement s.unit s.names)
      fun m => (do let node ← simple m; expect .newline; return node : Parser Node) := by
  have hat : s.At s.unit s.names.declared := ⟨rfl, rfl⟩
  refine (simple_prompt hat hpast).bind (fun u hu => ⟨_, hu⟩) fun n w s' hp hrun cool => ?_
  obtain ⟨v, ht, hw⟩ := simple_sound s n s' (hrun _ le_rfl)
  obtain rfl := List.append_cancel_right (hp.text.symm.trans ht.text)
  exact Prompt.expect (by simp) (fun _ => cool) ⟨[], _, _, hw s.names rfl⟩ fun _ =>
    Prompt.pure (cool_concat (by simp) _)

/-! ### Blocks -/

variable {α β : Type}

/-- Where at most `N` tokens are left and `Ok` holds of those before, `P` is prompt at the texts `W`, which go
from class names to class names; whatever it takes is one of them. -/
structure Clauses (c N : Nat) (Ok : List TokenKind → Prop)
    (W : Nat → ClassNames → List TokenKind → ClassNames → Prop) (P : Nat → Parser α) : Prop where
  prompt : ∀ past s, s.rest.length ≤ N → Ok past → Prompt c past s (fun w => ∃ b, W s.unit s.names w b) P
  takes : ∀ m, Written (P m) fun u a _ w b => W u a w b

theorem Clauses.bind {Ok : List TokenKind → Prop}
    {W : Nat → ClassNames → List TokenKind → ClassNames → Prop} {P : Nat → Parser α}
    (h : Clauses c N Ok W P) {c' : Nat} (hc : c ≤ c') (hN : s.rest.length ≤ N) (hok : Ok past)
    {C : List TokenKind → Prop} (hW : ∀ u b, W s.unit s.names u b → ∃ v, C (u ++ v))
    {F : Nat → α → Parser β}
    (hF : ∀ x w s', s.Passed w s' → W s.unit s.names w s'.names → Cool (past ++ w) s'.next.kind →
      Prompt (c' + w.length) (past ++ w) s' (fun v => C (w ++ v)) fun m => F m x) :
    Prompt c' past s C fun m => P m >>= F m := by
  refine ((h.prompt past s hN hok).mono hc).bind (fun u ⟨b, hb⟩ => hW u b hb)
    fun x w s' hp hrun cool => ?_
  obtain ⟨v, hv, hw⟩ := h.takes _ s x s' (hrun _ le_rfl)
  obtain rfl := List.append_cancel_right (hp.text.symm.trans hv.text)
  exact hF x w s' hp hw cool

/-- Clauses are read promptly one after another. -/
theorem manyUntil_prompt {I : Nat → Parser α} {kind : α → Clause} {kinds : List α → Clause}
    {stop : TokenKind → Bool} (hstop : stop .eof = true) (h : Clauses c N Begun (Forms kind) I)
    (nil : ∀ u a, Writes u a (kinds []) [] a)
    (cons : ∀ {u a b d x xs v w}, Writes u a (kind x) v b → Writes u b (kinds xs) w d →
      Writes u a (kinds (x :: xs)) (v ++ w) d)
    (pos : ∀ {u a x w b}, Writes u a (kind x) w b → 0 < w.length) {c' i : Nat} (hc : c ≤ c')
    (hi : i ≤ c') (hN : s.rest.length ≤ N) (hpast : Begun past) :
    Prompt c' past s (fun w => ∃ b, Forms kinds s.unit s.names w b)
      fun m => manyUntil stop (I m) (m - i) := by
  induction hn : s.rest.length using Nat.strong_induction_on generalizing past s c' i with
  | _ n ih =>
    subst hn
    by_cases hs : stop s.next.kind = true
    · refine Prompt.done (a := []) (fun t m ht => ?_) (hpast.cool _)
      cases m - i with
      | zero => rfl
      | succ m =>
        rw [manyUntil, bind_of_ok (peek_run t), ht.next (by omega), if_pos hs]
        rfl
    · have hlt := Reading.rest_length_pos (s := s) fun he => hs (by rw [he, hstop])
      refine Prompt.congr (Q := fun m => I m >>= fun x => manyUntil stop (I m) (m - (i + 1)) >>= fun xs =>
        Pure.pure (x :: xs)) ?_ fun t m hm ht => ?_
      · refine h.bind hc hN hpast (fun u b ⟨x, hx⟩ => ⟨[], b, _, cons hx (nil _ b)⟩)
          fun x w s' hp ⟨y, hy⟩ _ => ?_
        have hlen := hp.length
        have hwpos := pos hy
        have hbegun : Begun (past ++ w) := by
          obtain rfl | hw := hy.settles
          · exact absurd hwpos (Nat.lt_irrefl 0)
          · exact hw past
        refine Prompt.bind (ih _ (by omega) (by omega) (by omega) (by omega) hbegun rfl)
          (fun u ⟨d, xs, hxs⟩ => ⟨[], d, y :: xs, ?_⟩) fun _ _ _ _ _ cool => Prompt.pure cool
        rw [hp.unit] at hxs
        simpa using cons hy hxs
      · have hpos : 1 ≤ t.rest.length := ht.length_le le_rfl (by omega)
        obtain ⟨j, hj⟩ : ∃ j, m - i = j + 1 := ⟨m - i - 1, by omega⟩
        rw [Nat.sub_add_eq, hj, Nat.add_sub_cancel, manyUntil, bind_of_ok (peek_run t),
          ht.next (by omega), if_neg hs]

theorem exists_suite (unit : Nat) (a : ClassNames) : ∃ w, Writes unit a (.suite []) w a :=
  ⟨_, .suite .noStatements⟩

/-- Behind the colon of a header. -/
def Headed (past : List TokenKind) : Prop := ∃ p, past = p ++ [.char ':']

section

variable {S : Nat → Parser Node} (h : Clauses 1 N Begun (Forms .statement) S)
  (hs : ∀ m, StatementSound (S m))
include h hs

theorem statements_clauses {stop : TokenKind → Bool} (hstop : stop .eof = true) :
    Clauses 1 N Begun (Forms .statements) fun m => manyUntil stop (S m) m where
  prompt past s hN hok := manyUntil_prompt (i := 0) hstop h (fun _ _ => .noStatements) .statements
    Writes.length_pos le_rfl (Nat.zero_le _) hN hok
  takes m s ns s' hok := by
    obtain ⟨w, hp, hw, -⟩ := statements_written (hs m) stop m hok
    exact ⟨w, hp, _, hw⟩

theorem suite_clauses : Clauses 0 (N + 1) Headed (Forms .suite) fun m => suite m (S m) where
  prompt past s hN hok := by
    obtain ⟨p, rfl⟩ := hok
    have hbody : ∀ {u b}, Forms .statements s.unit s.names u b →
        Forms .suite s.unit s.names (.newline :: .indent :: u ++ [.dedent]) b := fun ⟨ns, hns⟩ =>
      ⟨ns, .suite hns⟩
    have hempty := hbody ⟨[], .noStatements⟩
    refine Prompt.expect (by simp) (fun _ => cool_concat (by simp) _) ⟨_, _, hempty⟩ fun hnew =>
      Prompt.peek (Prompt.expect (by simp) (fun _ => cool_concat (by simp) _) ⟨_, _, hempty⟩
        fun hin => ?_)
    have ht := Reading.Took.cons hnew (by simp) (.advance hin (by simp))
    have hlen := ht.length
    simp only [List.length_cons, List.length_nil] at hlen
    refine (statements_clauses h hs rfl).bind (by omega) (by omega) (begun_newline _).indent
      (fun u b hu => ?_) fun ns w s' hp hw cool => ?_
    · rw [ht.unit, ht.names] at hu
      exact ⟨[.dedent], b, hbody hu⟩
    · rw [ht.unit, ht.names] at hw
      exact Prompt.expect (by simp) (fun _ => cool) ⟨[], _, hbody hw⟩ fun _ =>
        Prompt.spanFrom (Prompt.pure (cool_concat (by simp) _))
  takes m s n s' hok := by
    obtain ⟨w, hp, ns, -, hw⟩ := suite_written (hs m) s n s' hok
    exact ⟨w, hp, ns, hw⟩

theorem conditional_prompt (hN : s.rest.length ≤ N + 1) (hpast : Begun past)
    (hif : s.next.kind = .keyword .kIf) :
    Prompt c past s (IsStatement s.unit s.names) fun m => conditional m (S m) := by
  have hempty := fun a => exists_suite s.unit a
  have hcond : ∀ {u}, IsExpr s.unit s.names.declared .disjunction u →
      ∃ v, IsStatement s.unit s.names (.keyword .kIf :: (u ++ .char ':' :: v)) := fun ⟨n, hn⟩ => by
    obtain ⟨v, hv⟩ := hempty s.names
    exact ⟨v, _, _, .ifThen hn hv⟩
  have hone := Reading.Took.advance hif (by simp)
  have hlen := hone.length
  rw [List.length_singleton] at hlen
  obtain ⟨y, hy⟩ := hcond (isExpr_number _ _ _)
  refine Prompt.peek (Prompt.expect (by simp) (fun _ => hpast.cool _) ⟨_, hy⟩ fun _ => ?_)
  refine (test_reader N s.unit s.names.declared).bind (Nat.zero_le _) (by omega)
    ⟨hone.unit, by rw [hone.names]⟩ (hpast.clean.fresh_concat (by simp) (by simp) (by simp))
    (fun u hu => (hcond hu).imp' (.char ':' :: ·) fun _ hv => hv) fun e u s₁ ht hu cool => ?_
  have hline := hone.trans ht
  refine Prompt.expect (by simp) (fun _ => cool) (hcond hu) fun hcolon => ?_
  have hhead := hline.concat hcolon (by simp)
  have hlen₁ := hhead.length
  simp only [List.length_append, List.length_cons, List.length_nil] at hlen₁
  obtain ⟨n, hn⟩ := hu
  refine (suite_clauses h hs).bind (Nat.zero_le _) (by omega) ⟨_, rfl⟩ (fun v b hv => ?_)
    fun yes v s₂ hp hv cool => ?_
  · obtain ⟨ns, hns⟩ := hv
    rw [hhead.unit, hhead.names] at hns
    exact ⟨[], _, _, by simpa using Writes.ifThen hn hns⟩
  obtain ⟨ns, hns⟩ := hv
  rw [hhead.unit, hhead.names] at hns
  have hpassed := hhead.passed.trans hp
  have hlen₂ := hpassed.length
  simp only [List.length_append, List.length_cons, List.length_nil] at hlen₂
  refine Prompt.accept (by simp) (fun helse => ?_) fun _ => Prompt.spanFrom (Prompt.pure cool)
  have hother : ∀ {w}, (∃ b, Forms .suite s₂.unit s₂.names w b) →
      IsStatement s.unit s.names
        (.keyword .kIf :: (u ++ .char ':' :: (v ++ .keyword .kElse :: .char ':' :: w))) := by
    rintro w ⟨b, ms, hms⟩
    rw [hpassed.unit] at hms
    exact ⟨_, _, by simpa using Writes.ifElse hn hns hms⟩
  obtain ⟨z, hz⟩ := exists_suite s₂.unit s₂.names
  refine Prompt.expect (by simp) (fun _ => cool_concat (by simp) _) ⟨z, hother ⟨_, _, hz⟩⟩ fun hcolon' => ?_
  have hmid := Reading.Took.cons helse (by simp) (.advance hcolon' (by simp))
  have hlen₃ := hmid.length
  simp only [List.length_cons, List.length_nil] at hlen₃
  refine (suite_clauses h hs).bind (Nat.zero_le _) (by omega) ⟨_, rfl⟩ (fun w b hw => ?_)
    fun _ _ _ _ _ cool => Prompt.spanFrom (Prompt.pure cool)
  rw [hmid.unit, hmid.names] at hw
  exact ⟨[], by simpa using hother ⟨b, hw⟩⟩

end

/-! ### Classes -/

/-- In the header of a method, where names stand for no value. -/
def Listed (past : List TokenKind) : Prop :=
  ¬ Clean past ∧ ∃ p k, past = p ++ [k] ∧ k ∈ [.char '(', .char ',']

theorem expectName_reader (N unit : Nat) (known : Set String) :
    Reader 0 N unit known Listed (fun w => ∃ x, w = [.name x]) fun _ => expectName where
  prompt past s hN hat hok := by
    obtain ⟨hdirty, p, k, rfl, hk⟩ := hok
    have hcool : Cool (p ++ [k]) s.next.kind := cool_concat (by rintro x rfl; simp at hk) _
    have hclass : (p ++ [k]).getLast? ≠ some (.keyword .kClass) := by
      rw [List.getLast?_concat]
      rintro ⟨⟩
      exact absurd hk (by decide)
    refine Prompt.congr (Q := fun _ => Parser.expectName >>= Pure.pure) ?_ fun t _ _ _ => by
      rw [bind_pure]
    exact Prompt.expectName hcool ⟨"", [], "", rfl⟩ fun x hx =>
      Prompt.pure (cool_name (fun h => hdirty h.2) hclass x _)
  takes m s x s' hs := by
    obtain ⟨hx, rfl⟩ := expectName_eq_ok.1 hs
    exact ⟨_, .advance hx (by simp), fun _ _ => ⟨x, rfl⟩⟩

theorem items_names : Items Listed fun w => ∃ x : String, w = [.name x] where
  exist := ⟨_, "", rfl⟩
  ne_nil := by
    rintro w ⟨x, rfl⟩
    simp
  again := by
    rintro past w ⟨hdirty, -⟩ ⟨x, rfl⟩
    exact ⟨not_clean_append (not_clean_append hdirty (by simp)) (by simp), _, _, rfl, by simp⟩

theorem names_reader (N unit : Nat) (known : Set String) :
    Reader 0 (N + 1) unit known (fun past => ¬ Clean past) (Parens fun w => ∃ x : String, w = [.name x])
      fun m => parenthesized expectName m :=
  parenthesized_reader (expectName_reader N unit known) items_names
    fun past hpast => ⟨not_clean_append hpast (by simp), past, _, rfl, by simp⟩

theorem exists_names {w : List TokenKind} (h : Parens (fun w => ∃ x : String, w = [.name x]) w) :
    ∃ xs : List String, w = parens (commas (xs.map fun x => [.name x])) := by
  obtain ⟨ws, hws, rfl⟩ := h
  suffices ∃ xs : List String, ws = xs.map fun x => [.name x] by
    obtain ⟨xs, rfl⟩ := this
    exact ⟨xs, rfl⟩
  induction ws with
  | nil => exact ⟨[], rfl⟩
  | cons v ws ih =>
    obtain ⟨⟨x, rfl⟩, hall⟩ := List.forall_mem_cons.1 hws
    obtain ⟨xs, rfl⟩ := ih hall
    exact ⟨x :: xs, rfl⟩

section

variable {S : Nat → Parser Node} (h : Clauses 1 N Begun (Forms .statement) S)
  (hs : ∀ m, StatementSound (S m))
include h hs

theorem method_clauses : Clauses 0 (N + 1) Begun (Forms .method) fun m => method m (S m) where
  prompt past s hN hpast := by
    have hheader : ∀ {x : String} {w}, Parens (fun w => ∃ x : String, w = [.name x]) w →
        ∀ {v b}, Forms .suite s.unit s.names v b →
          Forms .method s.unit s.names (.keyword .kDef :: .name x :: (w ++ .char ':' :: v)) b := by
      rintro x w hw v b ⟨ns, hns⟩
      obtain ⟨xs, rfl⟩ := exists_names hw
      exact ⟨_, .method (parameters_withoutSelf xs) hns⟩
    obtain ⟨z, hz⟩ := exists_suite s.unit s.names
    have hempty := fun x => hheader (x := x) ⟨[], by simp, rfl⟩ ⟨_, hz⟩
    refine Prompt.peek (Prompt.expect (by simp) (fun _ => hpast.cool _) ⟨_, _, hempty ""⟩ fun hdef =>
      Prompt.expectName (cool_concat (by simp) _) ⟨_, _, _, hempty ""⟩ fun x hx => ?_)
    have hname := Reading.Took.cons hdef (by simp) (.advance hx (by simp))
    have hlen := hname.length
    simp only [List.length_cons, List.length_nil] at hlen
    refine (names_reader N s.unit s.names.declared).bind (Nat.zero_le _) (by omega)
      ⟨hname.unit, by rw [hname.names]⟩
      (not_clean_append (not_clean_concat_def past) (by simp))
      (fun u hu => ⟨_, _, hheader hu ⟨_, hz⟩⟩) fun params u s₁ ht hu cool => ?_
    refine Prompt.expect (by simp) (fun _ => cool) ⟨_, _, hheader hu ⟨_, hz⟩⟩ fun hcolon => ?_
    have hhead := (hname.trans ht).concat hcolon (by simp)
    have hlen₁ := hhead.length
    simp only [List.length_append, List.length_cons, List.length_nil] at hlen₁
    refine (suite_clauses h hs).bind (Nat.zero_le _) (by omega) ⟨_, rfl⟩ (fun v b hv => ?_)
      fun _ _ _ _ _ cool => Prompt.spanFrom (Prompt.pure cool)
    rw [hhead.unit, hhead.names] at hv
    exact ⟨[], b, by simpa using hheader hu hv⟩
  takes m s d s' hok := by
    obtain ⟨w, hp, hw⟩ := method_written (hs m) s d s' hok
    exact ⟨w, hp, _, hw⟩

theorem methods_clauses {stop : TokenKind → Bool} (hstop : stop .eof = true) :
    Clauses 0 (N + 1) Begun (Forms .methods) fun m => manyUntil stop (method m (S m)) m where
  prompt past s hN hok := manyUntil_prompt (i := 0) hstop (method_clauses h hs)
    (fun _ _ => .noMethods) .methods Writes.method_pos le_rfl (Nat.zero_le _) hN hok
  takes m s ns s' hok := by
    obtain ⟨w, hp, hw⟩ := methods_written (hs m) stop m hok
    exact ⟨w, hp, _, hw⟩

end

/-- There is always a name for another class. -/
theorem exists_fresh (s : Reading) : ∃ x, x ∉ s.names.declared := by
  obtain ⟨x, hx⟩ := Infinite.exists_notMem_finset (s.declared.map Declared.name).toFinset
  refine ⟨x, fun hmem => hx ?_⟩
  obtain ⟨d, hd, hname⟩ := List.any_eq_true.1 hmem
  rw [← eq_of_beq hname]
  exact List.mem_toFinset.2 (List.mem_map_of_mem hd)

/-- A class of any name that is free may be defined. -/
theorem exists_class {x : String} (hx : x ∉ s.names.declared) :
    ∃ w, IsStatement s.unit s.names (.keyword .kClass :: .name x :: w) := by
  obtain ⟨z, hz⟩ := exists_suite s.unit { s.names with declared := insert x s.names.declared }
  have hmethod := Writes.method (m := "") (parameters_withoutSelf []) hz
  have hparent : ∀ p ∈ (none : Option String), p ∈ s.names.finished := by simp
  exact ⟨_, _, _, .classDef hx hparent (.methods hmethod .noMethods) (List.cons_ne_nil _ _)⟩

/-- The texts of the part of a header that names the parent of a class. -/
def IsParent (finished : Set String) (w : List TokenKind) : Prop :=
  ∃ parent : Option String, w = (parent.map fun p => parens [.name p]).getD [] ∧
    ∀ p ∈ parent, p ∈ finished

/-- The name of a parent is read promptly where there are classes to derive from. -/
theorem parent_prompt {p : String} (hp : s.finishes p = true) (hpast : ¬ Clean past)
    (hbracket : past.getLast? = some (.char '(')) :
    Prompt c past s (fun w => IsParent s.names.finished (.char '(' :: w)) fun _ =>
      (do
        let name ← expectName
        if (← get).finishes name then
          expect (.char ')')
          return some ⟨(← get).unit, name⟩
        else
          throw ⟨.unknownClass name, ← lastSpan⟩ : Parser (Option ClassId)) := by
  have hcompleted : ∀ x, s.finishes x = true → IsParent s.names.finished (.char '(' :: [.name x, .char ')']) :=
    fun x hx => ⟨some x, rfl, by rintro y ⟨⟩; exact hx⟩
  have hcool : ∀ k, Cool past k := by
    obtain ⟨q, rfl⟩ := List.getLast?_eq_some_iff.1 hbracket
    exact cool_concat (by simp)
  by_cases hx : ∃ x, s.next.kind = .name x ∧ ¬ s.finishes x = true
  · obtain ⟨x, hx, hnot⟩ := hx
    refine Prompt.fail (e := ⟨.unknownClass x, s.next.span⟩) (.here rfl (hcool _)) ⟨_, hcompleted p hp⟩
      fun t m ht => ?_
    have hnext := ht.next (by omega)
    rw [bind_of_ok (expectName_of_next (by rw [hnext, hx]))]
    show (if t.advance.finishes x then _ else _ : Parser (Option ClassId)) t.advance = _
    rw [Reading.finishes_advance, ht.finishes, if_neg hnot]
    show Except.error _ = _
    rw [Reading.last_advance (by rw [hnext, hx]; simp), hnext]
  · refine Prompt.expectName (hcool _) ⟨p, _, hcompleted p hp⟩ fun x hname => ?_
    have hfin : s.finishes x = true := by
      by_contra hnot
      exact hx ⟨x, hname, hnot⟩
    have hlast : past.getLast? ≠ some (.keyword .kClass) := by
      rw [hbracket]
      simp
    refine Prompt.congr (Q := fun _ => Parser.expect (.char ')') >>= fun _ => get >>= fun r =>
      Pure.pure (some ⟨r.unit, x⟩)) ?_ fun t m _ ht => ?_
    · refine Prompt.expect (by simp) (fun _ => cool_name (fun hf => hpast hf.2) hlast x _)
        ⟨[], hcompleted x hfin⟩ fun hclose => ?_
      refine Prompt.done (a := some ⟨s.advance.advance.unit, x⟩) (fun t m ht => ?_)
        (cool_concat (by simp) _)
      rw [← ht.unit]
      rfl
    · show (if t.finishes x then _ else _ : Parser (Option ClassId)) t = _
      rw [ht.finishes, Reading.finishes_advance, if_pos hfin]

/-- Where there is no class to derive from, what stands for one is wrong, whatever it is. -/
theorem parentClass_of_none {t : Reading} (hopen : t.next.kind = .char '(')
    (hnone : ∀ y, ¬ t.finishes y = true) :
    ∃ e, parentClass t = .error e ∧ e.span = (t.ahead 1).span := by
  rw [Reading.ahead_one, parentClass, bind_of_ok (accept_of_next hopen), if_pos rfl]
  by_cases hname : ∃ y, t.advance.next.kind = .name y
  · obtain ⟨y, hy⟩ := hname
    have hnot : ¬ t.advance.advance.finishes y = true := by
      rw [Reading.finishes_advance, Reading.finishes_advance]
      exact hnone y
    refine ⟨⟨.unknownClass y, t.advance.next.span⟩, ?_, rfl⟩
    rw [bind_of_ok (expectName_of_next hy)]
    show (if t.advance.advance.finishes y then _ else _ : Parser (Option ClassId)) _ = _
    rw [if_neg hnot]
    show Except.error _ = _
    rw [Reading.last_advance (by rw [hy]; simp)]
  · refine ⟨⟨.unexpectedToken "identifier" t.advance.next.kind.text, t.advance.next.span⟩, ?_, rfl⟩
    rw [bind_of_error (expectName_of_ne fun y hy => hname ⟨y, hy⟩)]

/-- A parent is read promptly, but for the parenthesis before it: where there is no class to derive from, it
is what stands behind the parenthesis that is wrong. -/
theorem parentClass_prompt {q : List TokenKind} {x : String} :
    Prompt c (q ++ [.keyword .kClass] ++ [.name x]) s (IsParent s.names.finished)
      fun _ => parentClass := by
  have hdirty : ¬ Clean (q ++ [.keyword .kClass] ++ [.name x]) :=
    not_clean_append (not_clean_concat_class q) (by simp)
  have hnone : IsParent s.names.finished [] := ⟨none, rfl, by simp⟩
  by_cases hopen : s.next.kind = .char '('
  · by_cases hfin : ∃ p, s.finishes p = true
    · obtain ⟨p, hp⟩ := hfin
      refine Prompt.accept (by simp) (fun _ => ?_) fun hne => absurd hopen hne
      have hnames : s.advance.names = s.names := Reading.names_congr s.declared_advance
      rw [← hnames]
      exact parent_prompt (p := p) (by rw [Reading.finishes_advance, hp])
        (not_clean_append hdirty (by simp)) List.getLast?_concat
    · have herror : ∀ {t : Reading}, s.Agrees 1 t →
          ∃ e, parentClass t = .error e ∧ e.span = (t.ahead 1).span := fun ht =>
        parentClass_of_none (by rw [ht.next (by omega), hopen]) fun y hy =>
          hfin ⟨y, by rwa [ht.finishes] at hy⟩
      obtain ⟨e, he, hspan⟩ := herror (.refl 1 s)
      exact Prompt.fail_with (.parent ⟨q, x, rfl⟩ hopen hspan) ⟨[], hnone⟩ (fun _ => he) fun t _ ht =>
        (herror ht).imp fun _ h => h.1
  · refine Prompt.done (a := none) (fun t m ht => ?_) (cool_of_ne hopen)
    rw [parentClass, bind_of_ok (accept_of_ne (by rwa [ht.next (by omega)])), if_neg (by simp)]
    rfl

section

variable {S : Nat → Parser Node} (h : Clauses 1 N Begun (Forms .statement) S)
  (hs : ∀ m, StatementSound (S m))
include h hs

/-- The part of a class behind its name is read promptly. -/
theorem classBody_prompt {q : List TokenKind} {x : String} (hN : s.rest.length ≤ N + 1)
    (hx : x ∉ s.names.declared) (start : Span) :
    Prompt c (q ++ [.keyword .kClass] ++ [.name x]) s
      (fun w => IsStatement s.unit s.names (.keyword .kClass :: .name x :: w))
      fun m => classBody m (S m) start x := by
  let inside : ClassNames := { s.names with declared := insert x s.names.declared }
  have hclass : ∀ {u}, IsParent s.names.finished u → ∀ {m w v b d},
      Writes s.unit inside (.method m) w b → Forms .methods s.unit b v d →
        IsStatement s.unit s.names (.keyword .kClass :: .name x ::
          (u ++ .char ':' :: .newline :: .indent :: (w ++ v ++ [.dedent]))) := by
    rintro u ⟨parent, rfl, hparent⟩ m w v b d hm ⟨ms, hms⟩
    exact ⟨_, _, by simpa using Writes.classDef hx hparent (.methods hm hms) (List.cons_ne_nil m ms)⟩
  obtain ⟨z, hz⟩ := exists_suite s.unit inside
  have hmethod : Writes s.unit inside (.method ⟨"", [], .methodBody {} (.block {} [])⟩) _ inside :=
    .method (parameters_withoutSelf []) hz
  have hend : ∀ b, Forms .methods s.unit b [] b := fun _ => ⟨[], .noMethods⟩
  refine Prompt.bind parentClass_prompt (fun u hu => ⟨_, hclass hu hmethod (hend inside)⟩)
    fun parent u s₁ hp hrun cool => ?_
  obtain ⟨p, rfl, ht, hparent⟩ := parentClass_sound (hrun _ le_rfl)
  obtain rfl := List.append_cancel_right (hp.text.symm.trans ht.text)
  have hu : IsParent s.names.finished ((p.map fun x => parens [.name x]).getD []) := ⟨p, rfl, hparent⟩
  have hempty := hclass hu hmethod (hend inside)
  refine Prompt.expect (by simp) (fun _ => cool) ⟨_, hempty⟩ fun hcolon =>
    Prompt.expect (by simp) (fun _ => cool_concat (by simp) _) ⟨_, hempty⟩ fun hnew =>
      Prompt.expect (by simp) (fun _ => cool_concat (by simp) _) ⟨_, hempty⟩ fun hin => ?_
  have hline := ht.trans (.cons hcolon (by simp) (.cons hnew (by simp) (.advance hin (by simp))))
  have hlen := hline.length
  simp only [List.length_append, List.length_cons, List.length_nil] at hlen
  generalize hs₂ : s₁.advance.advance.advance = s₂ at hline hlen ⊢
  refine Prompt.change (d := ⟨x, false⟩ :: s₂.declared) (fun t ht => by rw [← ht]; rfl) ?_
  have hnames : (s₂.openClass x).names = inside := by rw [Reading.names_openClass, hline.names]
  have hunit : (s₂.openClass x).unit = s.unit := hline.unit
  have hlen₂ : (s₂.openClass x).rest.length = s₂.rest.length := rfl
  refine (method_clauses h hs).bind (Nat.zero_le _) (by omega) (begun_newline _).indent (fun w b hw => ?_)
    fun first w s₃ hp₃ hw cool => ?_
  · obtain ⟨m, hm⟩ := hw
    rw [hunit, hnames] at hm
    exact ⟨[.dedent], by simpa using hclass hu hm (hend b)⟩
  obtain ⟨m, hm⟩ := hw
  rw [hunit, hnames] at hm
  have hbegun : Begun (q ++ [.keyword .kClass] ++ [.name x] ++ (p.map fun x => parens [.name x]).getD [] ++
      [.char ':'] ++ [.newline] ++ [.indent] ++ w) := by
    obtain rfl | hsettles := hm.settles
    · exact absurd hm.method_pos (Nat.lt_irrefl 0)
    · exact hsettles _
  have hlen₃ := hp₃.length
  have hunit₃ : s₃.unit = s.unit := hp₃.unit.trans hunit
  refine (methods_clauses h hs rfl).bind (Nat.zero_le _) (by omega) hbegun (fun v d hv => ?_)
    fun others v s₄ hp₄ hv cool => ?_
  · rw [hunit₃] at hv
    exact ⟨[.dedent], by simpa using hclass hu hm hv⟩
  rw [hunit₃] at hv
  refine Prompt.expect (by simp) (fun _ => cool) ⟨[], by simpa using hclass hu hm hv⟩ fun hclose => ?_
  refine Prompt.change (d := s₄.advance.declared.map fun d => if d.name == x then ⟨x, true⟩ else d)
    (fun t ht => by rw [← ht]; rfl) (Prompt.spanFrom (Prompt.done
      (a := .classDef (start.merge s₄.advance.last) ⟨⟨s₄.advance.unit, x⟩, p.map (ClassId.mk s.unit),
        first :: others⟩) (fun t m ht => ?_) (cool_concat (by simp) _)))
  rw [← show t.unit = s₄.advance.unit from ht.unit]
  rfl

theorem classDefinition_prompt (hN : s.rest.length ≤ N + 1) (hpast : Begun past)
    (hclass : s.next.kind = .keyword .kClass) :
    Prompt c past s (IsStatement s.unit s.names) fun m => classDefinition m (S m) := by
  obtain ⟨y, hy⟩ := exists_fresh s
  obtain ⟨z, hz⟩ := exists_class hy
  have hone := Reading.Took.advance hclass (by simp)
  have hlen := hone.length
  rw [List.length_singleton] at hlen
  refine Prompt.peek (Prompt.expect (by simp) (fun _ => hpast.cool _) ⟨_, hz⟩ fun _ => ?_)
  by_cases htaken : ∃ x, s.advance.next.kind = .name x ∧ s.declares x = true
  · obtain ⟨x, hx, htaken⟩ := htaken
    refine Prompt.fail (e := ⟨.duplicateClass x, s.advance.next.span⟩)
      (.here rfl (cool_concat (by simp) _)) ⟨_, hz⟩ fun t m ht => ?_
    have hnext := ht.next (by omega)
    rw [bind_of_ok (expectName_of_next (by rw [hnext, hx]))]
    show (if t.advance.declares x then _ else _ : Parser Node) t.advance = _
    rw [Reading.declares_advance, ht.declares, Reading.declares_advance, if_pos htaken]
    show Except.error _ = _
    rw [Reading.last_advance (by rw [hnext, hx]; simp), hnext]
  · refine Prompt.expectName (cool_concat (by simp) _) ⟨y, z, hz⟩ fun x hx => ?_
    have hfree : ¬ s.declares x = true := fun hd => htaken ⟨x, hx, hd⟩
    have htwo := hone.concat hx (by simp)
    have hlen₂ := htwo.length
    simp only [List.length_append, List.length_cons, List.length_nil] at hlen₂
    refine Prompt.congr (Q := fun m => classBody m (S m) s.next.span x) ?_ fun t m _ ht => ?_
    · have hbody := classBody_prompt (c := c + 1 + 1) (q := past) (s := s.advance.advance) h hs
        (by omega) (x := x) (by rw [htwo.names]; exact hfree) s.next.span
      rwa [htwo.unit, htwo.names] at hbody
    · show (if t.declares x then _ else _ : Parser Node) t = _
      rw [ht.declares, Reading.declares_advance, Reading.declares_advance, if_neg hfree]

/-! ### All statements -/

theorem statementOver_prompt (hN : s.rest.length ≤ N + 1) (hpast : Begun past) :
    Prompt c past s (IsStatement s.unit s.names) fun m => statementOver m (S m) := by
  refine Prompt.peek ?_
  cases hk : s.next.kind with
  | keyword k =>
    cases k with
    | kClass => exact classDefinition_prompt h hs hN hpast hk
    | kIf => exact conditional_prompt h hs hN hpast hk
    | kDef =>
      obtain ⟨n, hn⟩ := isExpr_number s.unit s.names.declared .disjunction
      refine Prompt.peek (Prompt.fail
        (e := ⟨.general "methods can only be defined inside a class", s.next.span⟩)
        (.here rfl (hpast.cool _)) ⟨_, _, _, .expr hn⟩ fun _ _ _ => rfl)
    | _ => exact line_prompt hpast
  | _ => exact line_prompt hpast

end

/-- No statement begins at the end. -/
theorem statement_of_end (m : Nat) {t : Reading} (ht : t.rest = []) :
    statement m t = .error ⟨.unexpectedToken "expression" "EOF", t.final⟩ := by
  obtain ⟨u, p, r, f, d⟩ := t
  obtain rfl : r = [] := ht
  cases m <;> rfl

theorem statement_clauses (N : Nat) : Clauses 0 N Begun (Forms .statement) statement := by
  have htakes : ∀ m, Written (statement m) fun u a _ w b => Forms .statement u a w b := by
    intro m s n s' hok
    obtain ⟨w, hp, hw⟩ := statement_sound m s n s' hok
    exact ⟨w, hp, _, hw⟩
  have hend : ∀ past s, s.rest = [] → Prompt 0 past s (IsStatement s.unit s.names) statement := by
    intro past s hs
    obtain ⟨n, hn⟩ := isExpr_number s.unit s.names.declared .disjunction
    exact Prompt.ended hs ⟨_, _, _, .expr hn⟩ fun _ m ht => statement_of_end m ht
  induction N with
  | zero =>
    exact ⟨fun past s hN _ => hend past s (List.eq_nil_of_length_eq_zero (by omega)), htakes⟩
  | succ N ih =>
    have inner : Clauses 1 N Begun (Forms .statement) fun m => statement (m - 1) :=
      ⟨fun past s hN hok => (ih.prompt past s hN hok).pred, fun m => htakes (m - 1)⟩
    refine ⟨fun past s hN hpast => ?_, htakes⟩
    by_cases hs : s.rest = []
    · exact hend past s hs
    · have hpos := List.length_pos_iff.2 hs
      refine (statementOver_prompt inner (fun m => statement_sound (m - 1)) hN hpast).congr
        fun t m hm ht => ?_
      have hlt : 1 ≤ t.rest.length := ht.length_le le_rfl hpos
      obtain ⟨j, rfl⟩ : ∃ j, m = j + 1 := ⟨m - 1, by omega⟩
      rfl

/-- Programs are read promptly. -/
theorem program_prompt (s : Reading) :
    Prompt 0 [] s (fun w => ∃ b, Forms .statements s.unit s.names w b) program := by
  have hbody : Prompt 0 [] s (fun w => ∃ b, Forms .statements s.unit s.names w b)
      fun m => manyUntil (· = .eof) (statement m) (m - 0) :=
    manyUntil_prompt (by simp) (statement_clauses s.rest.length) (fun _ _ => .noStatements) .statements
      Writes.length_pos le_rfl le_rfl le_rfl begun_nil
  exact Prompt.peek (hbody.bind (fun u hu => ⟨[], by rwa [List.append_nil]⟩) fun _ _ _ _ _ cool =>
    Prompt.peek (Prompt.pure cool))

end Parser

end ClassScript

import ClassScript.Proofs.Acceptance
import ClassScript.Proofs.Printer

/-!
# A program is read as it was written

The lines of a tree have the tokens that the grammar asks for, and every layout of these lines is
read as the tree again.  The induction over a tree gives the tokens of its lines between two stays at
its own level; a block that ends there gives back the levels that it took.  Main statement:
`ofText_of_layout`.
-/

namespace ClassScript

open Grammar
open Source (Line Layout levelMarks)

/-! ### Blocks of lines -/

namespace Source.Line

/-- Lines that stand at a level or deeper and begin at the level itself. -/
structure Block (level : Nat) (ls : List Line) : Prop where
  above : ∀ l ∈ ls, level ≤ l.level
  first : ∀ l ∈ ls.head?, l.level = level

namespace Block

variable {level : Nat} {ls ms : List Line}

theorem nil : Block level [] := ⟨List.forall_mem_nil _, nofun⟩

theorem append (h : Block level ls) (h' : Block level ms) : Block level (ls ++ ms) := by
  refine ⟨List.forall_mem_append.2 ⟨h.above, h'.above⟩, ?_⟩
  intro l hl
  cases ls with
  | nil => exact h'.first l hl
  | cons k ls => exact h.first l hl

/-- A line with a deeper block below it. -/
theorem header {w : List TokenKind} (h : Block (level + 1) ls) : Block level (⟨level, w⟩ :: ls) := by
  refine ⟨List.forall_mem_cons.2 ⟨le_refl level, ?_⟩, ?_⟩
  · intro k hk
    have := h.above k hk
    omega
  · rintro k ⟨⟩
    rfl

theorem single (w : List TokenKind) : Block level [⟨level, w⟩] := header nil

end Block

variable {m : Nat} {ls ms : List Line}

theorem levelMarks_self (m : Nat) : levelMarks m m = [] := by
  simp [levelMarks]

/-- Lines may be cut where a block begins. -/
theorem kinds_append (h : Block m ms) (old : Nat) :
    kinds old m (ls ++ ms) = kinds old m ls ++ kinds m m ms := by
  induction ls generalizing old with
  | nil =>
    cases ms with
    | nil => rw [List.nil_append, kinds, kinds, levelMarks_self, List.append_nil]
    | cons l ms =>
      have hl : l.level = m := h.first l rfl
      rw [List.nil_append, kinds, kinds, kinds, hl, levelMarks_self, List.nil_append]
  | cons l ls ih =>
    rw [List.cons_append, kinds, kinds, ih]
    simp only [List.append_assoc, List.cons_append]

/-- Behind a deeper block its level is left. -/
theorem kinds_leave (h : ∀ l ∈ ls, m + 1 ≤ l.level) {old : Nat} (hold : m + 1 ≤ old) :
    kinds old m ls = kinds old (m + 1) ls ++ [.dedent] := by
  induction ls generalizing old with
  | nil =>
    obtain ⟨d, rfl⟩ := Nat.exists_eq_add_of_le hold
    rw [kinds, kinds, levelMarks, levelMarks, if_neg (by omega), if_neg (by omega),
      show m + 1 + d - m = d + 1 by omega, Nat.add_sub_cancel_left, List.replicate_succ']
  | cons l ls ih =>
    obtain ⟨hl, hls⟩ := List.forall_mem_cons.1 h
    rw [kinds, kinds, ih hls hl]
    simp only [List.append_assoc, List.cons_append]

/-- The tokens of a line with a deeper block below it. -/
theorem kinds_header {w : List TokenKind} (h : Block (m + 1) ls) (hne : ls ≠ []) :
    kinds m m (⟨m, w⟩ :: ls) =
      w ++ .newline :: .indent :: kinds (m + 1) (m + 1) ls ++ [.dedent] := by
  obtain ⟨k, ks, rfl⟩ := List.exists_cons_of_ne_nil hne
  have hk : k.level = m + 1 := h.first k rfl
  have henter : levelMarks m (m + 1) = [.indent] := by
    rw [levelMarks, if_pos (Nat.lt_succ_self m), Nat.add_sub_cancel_left]
    rfl
  have hleave := kinds_leave (fun j hj => h.above j (List.mem_cons_of_mem k hj)) hk.ge
  rw [hk] at hleave
  rw [kinds, levelMarks_self, kinds, kinds, hk, henter, levelMarks_self, hleave]
  simp only [List.append_assoc, List.cons_append, List.nil_append]

theorem kinds_single (m : Nat) (w : List TokenKind) : kinds m m [⟨m, w⟩] = w ++ [.newline] := by
  rw [kinds, kinds, levelMarks_self, List.nil_append]

end Source.Line

/-! ### Expressions -/

namespace Grammar

variable {unit : Nat} {known : Set String} {a b : ClassNames}

/-- An operand has parentheses where it needs them. -/
theorem Spells.operand {r : Rank} {n : Node} {w : List TokenKind}
    (h : Spells unit known (.expr n.rank n.bare) w) :
    Spells unit known (.expr r n.bare) (n.operand r w) := by
  unfold Node.operand
  split
  · rename_i hr
    exact h.loosen hr
  · have hprimary : r.tightness ≤ Rank.primary.tightness := by
      cases r <;> decide
    exact (Spells.paren (h.loosen (Nat.zero_le _))).loosen hprimary

theorem Spells.args_words {ns : List Node}
    (h : ∀ n ∈ ns, Spells unit known (.expr n.rank n.bare) n.words) :
    Spells unit known (.args (ns.map Node.bare)) (parens (commas (ns.map Node.words))) := by
  have hitems : ∀ p ∈ ns.map fun n => (n.words, n.bare),
      Spells unit known (.expr .disjunction p.2) p.1 := by
    intro p hp
    obtain ⟨n, hn, rfl⟩ := List.mem_map.1 hp
    exact (h n hn).loosen (Nat.zero_le _)
  simpa [Function.comp_def] using Spells.args _ hitems

/-- The grammar has the words of an expression for it. -/
theorem Expression.spells {n : Node} (h : Expression unit known n) :
    Spells unit known (.expr n.rank n.bare) n.words := by
  induction h with
  | @literal s v h =>
    rw [Node.bare, Node.words]
    refine .literal ?_
    cases v with
    | none => exact .none
    | bool b =>
      cases b with
      | false => exact .false
      | true => exact .true
    | int n => exact .number n
    | str t => exact .string t
  | lookup ne names =>
    rw [Node.bare, Node.words]
    exact .lookup ne
  | call object name args iho ih =>
    rw [Node.bare, Node.words]
    exact iho.operand.concat_call (.args_words ih)
  | stringify free arg ih =>
    rw [Node.bare, Node.words]
    exact .str free (ih.loosen (Nat.zero_le _))
  | @arith s op l r left right ihl ihr =>
    rw [Node.bare, Node.words]
    exact Spells.concat_op (.arith op) ihl.operand ihr.operand
  | @logic s op l r left right ihl ihr =>
    rw [Node.bare, Node.words]
    exact Spells.concat_op (.logic op) ihl.operand ihr.operand
  | compare left right ihl ihr =>
    rw [Node.bare, Node.words]
    exact .compare _ ihl.operand ihr.operand
  | not arg ih =>
    rw [Node.bare, Node.words]
    exact .not ih.operand
  | new declared name args ih =>
    rw [Node.bare, Node.words]
    exact .new declared (.args_words ih)

/-- An expression in a place for any expression. -/
theorem Expression.spells_test {n : Node} (h : Expression unit known n) :
    Spells unit known (.expr .disjunction n.bare) n.words :=
  h.spells.loosen (Nat.zero_le _)

/-! ### Statements -/

/-- What the grammar has texts for, with all spans taken out of it. -/
def Clause.bare : Clause → Clause
  | statement n => statement n.bare
  | statements ns => statements (ns.map Node.bare)
  | suite ns => suite (ns.map Node.bare)
  | method m => method m.bare
  | methods ms => methods (ms.map MethodOf.bare)

/-- Only an empty list has no lines. -/
theorem Tree.eq_nil {c : Clause} (h : Tree unit a c b) {level : Nat} (hl : c.lines level = []) :
    c = .statements [] ∨ c = .methods [] := by
  induction h with
  | expr value =>
    rw [Clause.lines, value.lines] at hl
    cases hl
  | ifElse =>
    rw [Clause.lines, Node.lines] at hl
    cases hl
  | noStatements => exact .inl rfl
  | noMethods => exact .inr rfl
  | statements first rest ih ih' | methods first rest ih ih' =>
    rw [Clause.lines, List.flatMap_cons, List.append_eq_nil_iff] at hl
    rcases ih hl.1 with h | h
    · cases h
    · cases h
  | _ =>
    simp only [Clause.lines, Node.lines, Node.lines_classDef, MethodOf.lines] at hl
    cases hl

theorem Tree.statements_ne_nil {ns : List Node} (h : Tree unit a (.statements ns) b) (hne : ns ≠ [])
    (level : Nat) : ns.flatMap (Node.lines level) ≠ [] := by
  intro hl
  rcases h.eq_nil hl with h | h
  · exact hne (Clause.statements.inj h)
  · cases h

theorem Tree.methods_ne_nil {ms : List Method} (h : Tree unit a (.methods ms) b) (hne : ms ≠ [])
    (level : Nat) : ms.flatMap (MethodOf.lines level) ≠ [] := by
  intro hl
  rcases h.eq_nil hl with h | h
  · cases h
  · exact hne (Clause.methods.inj h)

/-- The lines of a tree are a block. -/
theorem Tree.block {c : Clause} (h : Tree unit a c b) (level : Nat) :
    Line.Block level (c.lines level) := by
  induction h generalizing level with
  | ret | print | assign | setField =>
    rw [Clause.lines, Node.lines]
    exact .single _
  | expr value =>
    rw [Clause.lines, value.lines]
    exact .single _
  | ifThen cond ne body ih =>
    rw [Clause.lines, Node.lines, Node.lines]
    exact .header (ih (level + 1))
  | ifElse cond ne body ne' other ih ih' =>
    rw [Clause.lines, Node.lines, Node.lines, Node.lines]
    exact .append (.header (ih (level + 1))) (.header (ih' (level + 1)))
  | classDef name fresh known ne body ih =>
    rw [Clause.lines, Node.lines_classDef]
    exact .header (ih (level + 1))
  | method name names ne suite ih =>
    rw [Clause.lines, MethodOf.lines, Node.lines, Node.lines]
    exact .header (ih (level + 1))
  | noStatements | noMethods => exact .nil
  | statements first rest ih ih' | methods first rest ih ih' =>
    rw [Clause.lines, List.flatMap_cons]
    exact .append (ih level) (ih' level)

/-- The tokens of a line with statements below it. -/
theorem Tree.kinds_header {ns : List Node} (h : Tree unit a (.statements ns) b) (hne : ns ≠ [])
    (level : Nat) (w : List TokenKind) :
    Line.kinds level level (⟨level, w⟩ :: ns.flatMap (Node.lines (level + 1))) =
      w ++ .newline :: .indent :: Line.kinds (level + 1) (level + 1)
        (Clause.lines (level + 1) (.statements ns)) ++ [.dedent] :=
  Line.kinds_header (h.block (level + 1)) (h.statements_ne_nil hne (level + 1))

/-- The grammar has the tokens of the lines of a tree for it. -/
theorem Tree.writes {c : Clause} (h : Tree unit a c b) (level : Nat) :
    Writes unit a c.bare (Line.kinds level level (c.lines level)) b := by
  induction h generalizing level with
  | ret value =>
    rw [Clause.lines, Node.lines, Line.kinds_single, Clause.bare, Node.bare]
    exact .ret value.spells_test
  | @print a s ns args =>
    rw [Clause.lines, Node.lines, Line.kinds_single, Clause.bare, Node.bare]
    have hitems : ∀ p ∈ ns.map fun n => (n.words, n.bare),
        Spells unit a.declared (.expr .disjunction p.2) p.1 := by
      intro p hp
      obtain ⟨n, hn, rfl⟩ := List.mem_map.1 hp
      exact (args n hn).spells_test
    simpa [Function.comp_def] using Writes.print _ hitems
  | assign name value =>
    rw [Clause.lines, Node.lines, Line.kinds_single, Clause.bare, Node.bare]
    exact .assign value.spells_test
  | setField ne names name value =>
    rw [Clause.lines, Node.lines, Line.kinds_single, Clause.bare, Node.bare]
    exact .setField ne value.spells_test
  | expr value =>
    rw [Clause.lines, value.lines, Line.kinds_single]
    exact .expr value.spells_test
  | ifThen cond ne body ih =>
    have := Writes.ifThen cond.spells_test (.suite (ih (level + 1)))
    rw [Clause.lines, Node.lines, Node.lines, body.kinds_header ne, Clause.bare, Node.bare, Node.bare]
    simpa using this
  | @ifElse a b d s t t' c yes no cond ne body ne' other ih ih' =>
    have := Writes.ifElse cond.spells_test (.suite (ih (level + 1))) (.suite (ih' (level + 1)))
    have hother : Line.Block level
        (⟨level, [.keyword .kElse, .char ':']⟩ :: no.flatMap (Node.lines (level + 1))) :=
      .header (other.block (level + 1))
    rw [Clause.lines, Node.lines, Node.lines, Node.lines, Line.kinds_append hother,
      body.kinds_header ne, other.kinds_header ne', Clause.bare, Node.bare, Node.bare, Node.bare]
    simpa using this
  | @classDef a b s c parent ms name fresh known ne body ih =>
    have hknown : ∀ p ∈ parent, p ∈ a.finished := fun p hp => (known p hp).1
    have := Writes.classDef fresh hknown (ih (level + 1)) (by simpa using ne)
    have hms : Line.Block (level + 1) (ms.flatMap (MethodOf.lines (level + 1))) :=
      body.block (level + 1)
    rw [Clause.lines, Node.lines_classDef, Line.kinds_header hms (body.methods_ne_nil ne _),
      Clause.bare, Node.bare_classDef]
    simpa [Clause.lines, Function.comp_def] using this
  | @method a b s t m params body name names ne suite ih =>
    have := Writes.method (m := m) (.withSelf params) (.suite (ih (level + 1)))
    rw [Clause.lines, MethodOf.lines, Node.lines, Node.lines, suite.kinds_header ne, Clause.bare,
      MethodOf.bare, Node.bare, Node.bare]
    simpa using this
  | noStatements =>
    rw [Clause.lines, List.flatMap_nil, Line.kinds, Line.levelMarks_self]
    exact .noStatements
  | noMethods =>
    rw [Clause.lines, List.flatMap_nil, Line.kinds, Line.levelMarks_self]
    exact .noMethods
  | @statements a b d n ns first rest ih ih' =>
    have hns : Line.Block level (ns.flatMap (Node.lines level)) := rest.block level
    rw [Clause.lines, List.flatMap_cons, Line.kinds_append hns]
    exact .statements (ih level) (ih' level)
  | @methods a b d m ms first rest ih ih' =>
    have hms : Line.Block level (ms.flatMap (MethodOf.lines level)) := rest.block level
    rw [Clause.lines, List.flatMap_cons, Line.kinds_append hms]
    exact .methods (ih level) (ih' level)

end Grammar

/-! ### Texts -/

theorem Source.Line.eof_not_mem_kinds {ls : List Line} (h : ∀ l ∈ ls, Writable l) (old new : Nat) :
    .eof ∉ Line.kinds old new ls := by
  induction ls generalizing old with
  | nil => exact eof_not_mem_levelMarks old new
  | cons l ls ih =>
    obtain ⟨⟨-, hl⟩, hls⟩ := List.forall_mem_cons.1 h
    rw [kinds]
    intro hm
    rcases List.mem_append.1 hm with hm | hm
    · exact eof_not_mem_levelMarks _ _ hm
    · rcases List.mem_append.1 hm with hm | hm
      · cases hl _ hm
      · rcases List.mem_cons.1 hm with h | hm
        · cases h
        · exact ih hls _ hm

/-- A well-formed program has a text, and each of its texts is read as the program, up to spans. -/
theorem ofText_of_layout {unit : Nat} {n : Node} (h : n.WellFormed unit) :
    Layout (n.lines 0) n.render.toList ∧
      ∀ text : String, Layout (n.lines 0) text.toList →
        ∃ m, Node.ofText unit text = .ok m ∧ m.bare = n.bare := by
  obtain ⟨s, ns, b, rfl, htree⟩ := h
  have hlines : (Node.block s ns).lines 0 = Clause.lines 0 (.statements ns) := by
    rw [Node.lines]
    rfl
  have hwritable := htree.writable 0
  rw [← hlines] at hwritable
  constructor
  · rw [Node.render, String.toList_ofList]
    exact Source.layout_render hwritable
  · intro text htext
    obtain ⟨ts, hts, hkinds⟩ := Source.tokens_of_layout htext
    obtain ⟨us, vs, rfl, hus, hvs⟩ := List.map_eq_append_iff.1 hkinds
    obtain ⟨last, rfl, hlast⟩ := List.map_eq_singleton_iff.1 hvs
    have heof : ∀ t ∈ us, t.kind ≠ .eof := by
      intro t ht hk
      apply Line.eof_not_mem_kinds hwritable 0 0
      rw [← hus, ← hk]
      exact List.mem_map_of_mem ht
    have hwrites := htree.writes 0
    rw [← hlines, ← hus] at hwrites
    obtain ⟨m, hm, hbare⟩ := (ofTokens_eq_ok_iff heof hlast (ns.map Node.bare)).2 ⟨b, hwrites⟩
    refine ⟨m, ?_, ?_⟩
    · rw [Node.ofText, hts]
      show (Node.ofTokens unit (us ++ [last])).mapError Failure.syntactic = _
      rw [hm]
      rfl
    · rw [hbare, Node.bare]

theorem ofText_point :
    let scaled : Node := .ret {} (.arith {} .mul
      (.arith {} .add (.lookup {} ["k"]) (.literal {} (.int 1))) (.literal {} (.int 2)))
    let n : Node := .block {} [
      .classDef {} ⟨⟨0, "Point"⟩, none, [⟨"scaled", ["k"], .methodBody {} (.block {} [scaled])⟩]⟩,
      .print {} [.call {} (.new {} ⟨0, "Point"⟩ []) "scaled" [.literal {} (.int 3)]]]
    n.WellFormed 0 ∧
      n.render = "class Point :\n  def scaled ( self , k ) :\n    return ( k + 1 ) * 2\n" ++
        "print Point ( ) . scaled ( 3 )\n" ∧
      ∃ m, Node.ofText 0 n.render = .ok m ∧ m.bare = n.bare := by
  intro scaled n
  have hint : ∀ i : Int64, 0 ≤ i → ∀ j, Literal.int i = .int j → 0 ≤ j := by
    rintro i hi j ⟨⟩
    exact hi
  have hscaled {a : ClassNames} : Tree 0 a (.statement scaled) a :=
    .ret (.arith (.arith (.lookup (by decide) (by decide)) (.literal (hint 1 (by decide))))
      (.literal (hint 2 (by decide))))
  have hprint {a : ClassNames} (h : "Point" ∈ a.declared) : Tree 0 a (.statement n.children[1]) a :=
    .print (List.forall_mem_singleton.2
      (.call (.new h (by decide) (List.forall_mem_nil _)) (by decide)
        (List.forall_mem_singleton.2 (.literal (hint 3 (by decide))))))
  have hclass : Tree 0 {} (.statement n.children[0])
      { declared := insert "Point" ∅, finished := insert "Point" ∅ } :=
    @Tree.classDef 0 {} _ {} "Point" none _ (by decide) (Set.notMem_empty _) nofun (by simp)
      (.methods (.method (by decide) (by decide) (by simp) (.statements hscaled .noStatements))
        .noMethods)
  have h : n.WellFormed 0 :=
    ⟨{}, _, _, rfl, .statements hclass (.statements (hprint (Set.mem_insert _ _)) .noStatements)⟩
  refine ⟨h, ?_, ?_⟩
  · simp only [n, scaled, Node.render, Node.lines, Node.words, List.flatMap_cons, List.map_cons,
      List.map_nil, List.flatMap_nil]
    decide
  · obtain ⟨hl, hread⟩ := ofText_of_layout h
    exact hread _ hl

end ClassScript

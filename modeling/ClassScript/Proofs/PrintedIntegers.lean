import ClassScript.Proofs.IntegerExpressions
import ClassScript.Proofs.ProgramsJoined
import ClassScript.Proofs.SinkLimit

/-!
# Printed integers

The texts of an integer expression (`IntExpr.Text`): products bind tighter than sums and signs tighter still,
operations of one level are grouped from the left, and parentheses and blanks may be added.  Each is read as the
tree of the expression, also behind `print`, whose operand may begin with a parenthesis.  Main statement: a line
that prints an expression prints its value over the whole numbers, or fails with what goes wrong first
(`runText_printLine`).
-/

namespace ClassScript

open Grammar Source

namespace IntExpr

/-- How tightly an expression binds. -/
inductive Level where
  | sum | product | factor
  deriving DecidableEq, Repr

/-- The next tighter level. -/
def Level.tighter : Level → Level
  | sum => product
  | product | factor => factor

/-- The level of what an operation makes. -/
def levelOf : ArithOp → Level
  | .add | .sub => .sum
  | .mul | .div => .product

/-- The sign of an operation. -/
def signOf : ArithOp → Char
  | .add => '+'
  | .sub => '-'
  | .mul => '*'
  | .div => '/'

/-- The texts of an expression of a level, with blanks behind each of their words. -/
inductive Text : Level → IntExpr → List Char → Prop
  | literal (zeros : Nat) (n : Fin 0x8000000000000000) {gap : List Char} (blank : ∀ c ∈ gap, isBlank c = true) :
    Text .factor (.literal n) (.replicate zeros '0' ++ Nat.toDigits 10 n ++ gap)
  | paren {e : IntExpr} {gap cs gap' : List Char} (blank : ∀ c ∈ gap, isBlank c = true) (inner : Text .sum e cs)
    (blank' : ∀ c ∈ gap', isBlank c = true) : Text .factor e ('(' :: (gap ++ cs) ++ ')' :: gap')
  | neg {e : IntExpr} {gap cs : List Char} (blank : ∀ c ∈ gap, isBlank c = true) (arg : Text .factor e cs) :
    Text .factor (.neg e) ('-' :: (gap ++ cs))
  /-- The left operand of an operation may be one of the same level, the right one may not. -/
  | binary (op : ArithOp) {l r : IntExpr} {cs gap ds : List Char} (left : Text (levelOf op) l cs)
    (blank : ∀ c ∈ gap, isBlank c = true) (right : Text (levelOf op).tighter r ds) :
    Text (levelOf op) (.binary op l r) (cs ++ signOf op :: (gap ++ ds))
  | looser {level : Level} {e : IntExpr} {cs : List Char} (h : Text level.tighter e cs) : Text level e cs

/-- The texts of a line that prints an expression, with a line feed at its end or without. Something must tell
`print` from the first digit of a number. -/
inductive PrintLine (e : IntExpr) : String → Prop
  | line {gap cs stop : List Char} (blank : ∀ c ∈ gap, isBlank c = true)
    (apart : gap ≠ [] ∨ cs.head? = some '(' ∨ cs.head? = some '-') (expr : Text .sum e cs)
    (ends : stop = [] ∨ stop = ['\n']) : PrintLine e (String.ofList ("print".toList ++ (gap ++ cs) ++ stop))

/-- The rank of a level in the grammar. -/
def Level.rank : Level → Rank
  | sum => .sum
  | product => .product
  | factor => .signed

end IntExpr

namespace Source

theorem decimal_zeros (zeros : Nat) (ds : List Char) : decimal (.replicate zeros '0' ++ ds) = decimal ds := by
  induction zeros with
  | zero => rfl
  | succ zeros ih =>
    rw [← ih]
    rfl

/-- The digits of a number, with zeros in front of them. -/
theorem word_digits (zeros : Nat) {n : Nat} (hn : n ≤ maxInt) :
    Word (.number (Int64.ofNat n)) (.replicate zeros '0' ++ Nat.toDigits 10 n) := by
  have hvalue : decimal (.replicate zeros '0' ++ Nat.toDigits 10 n) = n := by
    rw [decimal_zeros, decimal_toDigits]
  have hword : Word (.number (Int64.ofNat (decimal (.replicate zeros '0' ++ Nat.toDigits 10 n))))
      (.replicate zeros '0' ++ Nat.toDigits 10 n) := .number (fun d hd => ?_) ?_ (hvalue.le.trans hn)
  · rwa [hvalue] at hword
  · rcases List.mem_append.1 hd with hzero | hd
    · rw [List.eq_of_mem_replicate hzero]
      rfl
    · exact Nat.isDigit_of_mem_toDigits (by decide) (by decide) hd
  · simp

/-- A character that is a token of its own, with blanks behind it. -/
theorem Spaced.mark {c : Char} {gap cs : List Char} {ks : List TokenKind} (hc : isMark c = true)
    (hsingle : withEquals? c = none) (blank : ∀ d ∈ gap, isBlank d = true) (rest : Spaced ks cs) :
    Spaced (.char c :: ks) (c :: (gap ++ cs)) := by
  refine .cons (t := [c]) (.mark hc) blank (fun d _ => ?_) rest
  rw [goesOn, hsingle]
  rfl

end Source

namespace IntExpr

theorem rank_levelOf (op : ArithOp) : (levelOf op).rank = (BinOp.arith op).rank := by
  cases op <;> rfl

theorem rank_tighter_levelOf (op : ArithOp) : (levelOf op).tighter.rank = (BinOp.arith op).rank.next := by
  cases op <;> rfl

theorem token_arith (op : ArithOp) : (BinOp.arith op).token = .char (signOf op) := by
  cases op <;> rfl

/-- The sign of an operation ends any word in front of it. -/
theorem stops_sign (op : ArithOp) (cs : List Char) (k : TokenKind) : Stops k (signOf op :: cs) := by
  intro d hd
  obtain rfl : signOf op = d := Option.some.inj hd
  cases op
  all_goals exact goesOn_eq_false (by decide) (by decide) (by decide) k

/-- The text of an expression is one of words that the grammar has for its tree. -/
theorem Text.spells {level : Level} {e : IntExpr} {cs : List Char} (h : Text level e cs) (unit : Nat)
    (known : Set String) : ∃ ks, Spaced ks cs ∧ Spells unit known (.expr level.rank e.tree) ks := by
  induction h with
  | literal zeros n blank =>
    have hword := word_digits zeros (Nat.le_of_lt_succ n.isLt)
    have hstop (k : TokenKind) : Stops k [] := nofun
    have hspaced := Spaced.cons hword blank (stops_of_blank blank (hstop _)) .nil
    rw [List.append_nil] at hspaced
    exact ⟨_, hspaced, (Spells.literal (.number _)).loosen (by decide)⟩
  | @paren e gap cs gap' blank _ blank' ih =>
    obtain ⟨ks, hcs, hks⟩ := ih
    have hclose : Spaced [.char ')'] (')' :: (gap' ++ [])) := .mark (by decide) rfl blank' .nil
    rw [List.append_nil] at hclose
    have hinner := hcs.append hclose fun k d hd => by
      obtain rfl : ')' = d := Option.some.inj hd
      exact goesOn_eq_false (by decide) (by decide) (by decide) k
    refine ⟨parens ks, ?_, ?_⟩
    · rw [List.cons_append, List.append_assoc]
      exact .mark (by decide) rfl blank hinner
    · exact (Spells.paren (hks.loosen (by decide))).loosen (by decide)
  | @neg e gap cs blank _ ih =>
    obtain ⟨ks, hcs, hks⟩ := ih
    exact ⟨.char '-' :: ks, .mark (by decide) rfl blank hcs, .minus hks⟩
  | @binary op l r cs gap ds _ blank _ ihl ihr =>
    obtain ⟨ks, hcs, hks⟩ := ihl
    obtain ⟨js, hds, hjs⟩ := ihr
    have hsign : Spaced (.char (signOf op) :: js) (signOf op :: (gap ++ ds)) :=
      .mark (by cases op <;> decide) (by cases op <;> rfl) blank hds
    refine ⟨_, hcs.append hsign (stops_sign op _), ?_⟩
    rw [rank_levelOf] at hks ⊢
    rw [rank_tighter_levelOf] at hjs
    rw [← token_arith]
    exact .concat_op (.arith op) hks hjs
  | @looser level e cs _ ih =>
    obtain ⟨ks, hcs, hks⟩ := ih
    refine ⟨ks, hcs, ?_⟩
    cases level with
    | factor => exact hks
    | _ => exact hks.looser

/-- No text of an expression has fewer characters than its operations stand in one another. -/
theorem Text.depth_le {level : Level} {e : IntExpr} {cs : List Char} (h : Text level e cs) :
    e.depth ≤ cs.length := by
  induction h with
  | literal zeros n blank =>
    have hdigits : 0 < (Nat.toDigits 10 n.val).length := List.length_pos_iff.2 (by simp)
    simp only [depth, List.length_append]
    omega
  | paren _ _ _ ih =>
    simp only [List.length_append, List.length_cons]
    omega
  | neg _ _ ih =>
    simp only [depth, List.length_append, List.length_cons]
    omega
  | binary _ _ _ _ ihl ihr =>
    simp only [depth, List.length_append, List.length_cons]
    omega
  | looser _ ih => exact ih

theorem bare_tree (e : IntExpr) : e.tree.bare = e.tree := by
  induction e with
  | literal n => simp [tree, Node.bare]
  | neg arg ih => simp [tree, Node.bare, ih]
  | binary op l r ihl ihr => simp [tree, Node.bare, ihl, ihr]

/-- The program that prints an expression. -/
def program (e : IntExpr) : Node := .block {} [.print {} [e.tree]]

theorem bare_program (e : IntExpr) : e.program.bare = e.program := by
  simp [program, Node.bare, bare_tree]

/-- A line that prints an expression is read as the program that prints it. -/
theorem PrintLine.ofText {e : IntExpr} {text : String} (h : PrintLine e text) (unit : Nat) :
    ∃ root, Node.ofText unit text = .ok root ∧ root.bare = e.program := by
  obtain ⟨blank, apart, expr, ends⟩ := h
  rename_i gap cs stop
  obtain ⟨ks, hcs, hks⟩ := expr.spells unit ({} : ClassNames).declared
  have hstops : Stops (.keyword .kPrint) (gap ++ cs) := by
    cases gap with
    | cons c gap => exact stops_of_isBlank _ (blank c List.mem_cons_self) _
    | nil =>
      intro d hd
      have hd : d = '(' ∨ d = '-' := by
        rcases apart with hne | heq | heq
        · exact absurd rfl hne
        · exact .inl (Option.some.inj (hd.symm.trans heq))
        · exact .inr (Option.some.inj (hd.symm.trans heq))
      rcases hd with rfl | rfl
      · rfl
      · rfl
  have hline : Spaced (.keyword .kPrint :: ks) ("print".toList ++ (gap ++ cs)) :=
    .cons (word_keyword .kPrint) blank hstops hcs
  obtain ⟨ts, hts, hkinds⟩ := tokens_of_spaced hline (List.cons_ne_nil _ _) ends
  have hcommas : commas [ks] = ks := by simp [commas, List.intercalate]
  have hprint : Writes unit {} (.statement (.print {} [e.tree]))
      (.keyword .kPrint :: commas [ks] ++ [.newline]) {} :=
    .print [(ks, e.tree)] (List.forall_mem_singleton.2 (hks.loosen (by decide)))
  rw [hcommas] at hprint
  have hprogram := Writes.statements hprint .noStatements
  rw [List.append_nil] at hprogram
  exact ofText_of_writes hts (by simpa using hkinds) hprogram

/-- A line that prints an expression is longer than the operations stand in one another. -/
theorem PrintLine.depth_le {e : IntExpr} {text : String} (h : PrintLine e text) : e.depth + 5 ≤ text.length := by
  obtain ⟨blank, apart, expr, ends⟩ := h
  rename_i gap cs stop
  have hdepth := expr.depth_le
  have hprint : "print".toList.length = 5 := rfl
  rw [String.length_ofList, List.length_append, List.length_append, List.length_append, hprint]
  omega

end IntExpr

/-! ### Running the line -/

namespace Exec

variable {limit : Option Nat} {n : Nat} {t : Node} {v : Int64} {fault : RuntimeFault} {span : Span}

theorem exec_print_single (limit : Option Nat) (n : Nat) (t : Node) :
    exec limit (n + 2) (.print {} [t]) = exec limit (n + 1) t >>= fun v =>
      holding v (text limit (n + 1) {} v) >>= fun s => write s >>= fun _ => write "\n" >>= fun _ => pure v :=
  rfl

/-- An integer that comes of a node that keeps the machine as it is is printed. -/
theorem exec_print_int (hrun : exec limit (n + 1) t = pure (.int v)) {m : Machine} (hm : m.sink.limit = none) :
    exec limit (n + 2) (.print {} [t]) m =
      (.ok (.int v), { m with sink := (m.sink.write (toString v.toInt)).write "\n" }) := by
  have htext : holding (.int v) (text limit (n + 1) {} (.int v)) m = (.ok (toString v.toInt), m) := rfl
  have hline : (m.sink.write (toString v.toInt)).limit = none := hm
  rw [exec_print_single, hrun, pure_bind, bind_apply, htext]
  dsimp only
  rw [bind_apply, write_apply, if_pos (Sink.fits_of_unlimited hm _)]
  dsimp only
  rw [bind_apply, write_apply, if_pos (Sink.fits_of_unlimited hline _)]
  rfl

/-- Nothing is printed of a node that fails. -/
theorem exec_print_raise (hrun : exec limit (n + 1) t = raise fault span) :
    exec limit (n + 2) (.print {} [t]) = raise fault span := by
  rw [exec_print_single, hrun]
  rfl

/-- A block of one statement does what the statement does. -/
theorem exec_block_single (span : Span) {s : Node} {m m' : Machine} {r : Except Signal Value}
    (hrun : exec limit n s { m with held := .none :: m.held } = (r, m')) :
    exec limit (n + 1) (.block span [s]) m = (r, { m' with held := m.held }) := by
  show block (exec limit n) .none [s] m = _
  rw [block_cons_apply, hrun]
  cases r <;> rfl

end Exec

namespace IntExpr

open Exec

theorem written_line (s : String) : ((({} : Sink).write s).write "\n").written = (s ++ "\n").toUTF8 := by
  rw [Sink.write_of_unlimited rfl, Sink.write_of_unlimited rfl, ByteArray.empty_append]
  exact String.toByteArray_append.symm

/-- The program that prints an expression prints its value, or does nothing but to fail. -/
theorem interpret_program (limit : Option Nat) {e : IntExpr} {n : Nat} (hn : e.depth + 2 ≤ n) {m : Machine}
    (hm : m.sink.limit = none) :
    (e.firstFault? = none → ∃ v, m.interpret limit n e.program =
      (some (.ok v), { m with sink := (m.sink.write (toString e.value)).write "\n" })) ∧
      ∀ fault, e.firstFault? = some fault →
        m.interpret limit n e.program = (some (.error (.raised fault {})), m) := by
  have hpos : 0 < e.depth := depth_pos
  obtain ⟨k, rfl⟩ : ∃ k, n = k + 3 := Nat.exists_eq_add_of_le' (by omega)
  have htree := exec_tree limit (n := k + 1) (e := e) (by omega)
  refine ⟨fun h => ?_, fun fault h => ?_⟩
  · obtain ⟨v, hv, hrun⟩ := htree.ok h
    have hprint := exec_print_int hrun (m := { m with held := .none :: m.held }) hm
    have hblock := exec_block_single {} hprint
    refine ⟨.int v, ?_⟩
    rw [Machine.interpret, program, hblock, hv]
    rfl
  · have hprint := exec_print_raise (htree.fails fault h)
    have hblock := exec_block_single {} (congrFun hprint { m with held := .none :: m.held })
    rw [Machine.interpret, program, hblock]
    rfl

end IntExpr

/-- A line that prints an integer expression prints its value over the whole numbers, if all values on the way are
integers of 64 bits and no divisor is zero.  If not, it prints nothing and fails with what is wrong with the first
part, in the order in which they are computed, with which something is wrong. -/
theorem runText_printLine {e : IntExpr} {text : String} (h : e.PrintLine text) (limit : Option Nat) {fuel : Nat}
    (hfuel : text.length ≤ fuel) :
    (e.Computable → runText text limit {} fuel =
      some { failure := none, output := (toString e.value ++ "\n").toUTF8 }) ∧
    (¬ e.Computable → ∃ before part behind fault span, e.parts = before ++ part :: behind ∧
      (∀ p ∈ before, p.fault? = none) ∧ part.fault? = some fault ∧
        runText text limit {} fuel = some { failure := some (.runtime (.raised fault span)) }) := by
  obtain ⟨root, hroot, hbare⟩ := h.ofText 0
  have hbare : root.bare = e.program.bare := hbare.trans e.bare_program.symm
  have hload := (Machine.Akin.refl {}).load hbare
  have hakin := (hload.interpret hbare limit fuel).2
  have hreport : runText text limit {} fuel =
      ((Machine.load {} root).interpret limit fuel root).1.map
        ((Machine.load {} root).interpret limit fuel root).2.report := runText_of_ofText hroot limit {} fuel
  have hfuel : e.depth + 2 ≤ fuel := by
    have hdepth := h.depth_le
    omega
  obtain ⟨hok, hfails⟩ := IntExpr.interpret_program limit hfuel (m := Machine.load {} e.program) rfl
  refine ⟨fun he => ?_, fun he => ?_⟩
  · obtain ⟨v, hv⟩ := hok (IntExpr.firstFault?_eq_none_iff.2 he)
    rw [hv] at hakin
    rw [hreport, hload.interpret_eq_ok hbare (congrArg Prod.fst hv), Option.map_some, Machine.report, hakin.sink,
      hakin.trace, ← IntExpr.written_line]
    rfl
  · obtain ⟨fault, hfault⟩ := Option.ne_none_iff_exists'.1 (mt IntExpr.firstFault?_eq_none_iff.1 he)
    obtain ⟨before, part, behind, hparts, hpart, hbefore⟩ := List.findSome?_eq_some_iff.1 hfault
    have hv := hfails fault hfault
    obtain ⟨span, hraised⟩ := hload.exists_raised hbare (congrArg Prod.fst hv)
    rw [hv] at hakin
    refine ⟨before, part, behind, fault, span, hparts, hbefore, hpart, ?_⟩
    rw [hreport, hraised, Option.map_some, Machine.report, hakin.sink, hakin.trace]
    rfl

/-- The least integer is printed, and its quotient by minus one is none. -/
theorem runText_printLine_least :
    runText "print(-9223372036854775807 - 1)\n" none {} 40 =
        some { failure := none, output := "-9223372036854775808\n".toUTF8 } ∧
      ∃ span, runText "print (-9223372036854775807 - 1)/-1" none {} 40 =
        some { failure := some (.runtime (.raised (.overflow .div) span)) } := by
  let greatest : IntExpr := .literal ⟨9223372036854775807, by omega⟩
  let one : IntExpr := .literal ⟨1, by omega⟩
  let least : IntExpr := .binary .sub (.neg greatest) one
  let quotient : IntExpr := .binary .div least (.neg one)
  have hblank : ∀ c ∈ [' '], isBlank c = true := List.forall_mem_singleton.2 rfl
  have hnone : ∀ c ∈ [], isBlank c = true := List.forall_mem_nil _
  have hone : IntExpr.Text .factor one _ := .literal 0 _ hnone
  have hgreatest : IntExpr.Text .factor greatest _ := .literal 0 _ hblank
  have hleast : IntExpr.Text .sum least _ :=
    .binary .sub (.looser (.looser (.neg hnone hgreatest))) hblank (.looser hone)
  have hquotient : IntExpr.Text .product quotient _ :=
    .binary .div (.looser (.paren hnone hleast hnone)) hnone (.neg hnone hone)
  have hline₁ : least.PrintLine "print(-9223372036854775807 - 1)\n" := by
    refine (congrArg least.PrintLine ?_).mp
      (.line hnone (.inr (.inl rfl)) (.looser (.looser (.paren hnone hleast hnone))) (.inr rfl))
    decide +kernel
  have hline₂ : quotient.PrintLine "print (-9223372036854775807 - 1)/-1" := by
    refine (congrArg quotient.PrintLine ?_).mp
      (.line hblank (.inl (List.cons_ne_nil _ _)) (.looser hquotient) (.inl rfl))
    decide +kernel
  have hshort₁ : "print(-9223372036854775807 - 1)\n".length ≤ 40 := by decide +kernel
  have hshort₂ : "print (-9223372036854775807 - 1)/-1".length ≤ 40 := by decide +kernel
  have hfirst : quotient.firstFault? = some (.overflow .div) := by decide +kernel
  have hquotient : ¬ quotient.Computable := fun h => by
    rw [IntExpr.firstFault?_eq_none_iff.2 h] at hfirst
    cases hfirst
  obtain ⟨before, part, behind, fault, span, hparts, hbefore, hpart, hrun⟩ :=
    (runText_printLine hline₂ none hshort₂).2 hquotient
  have hfault : quotient.firstFault? = some fault :=
    List.findSome?_eq_some_iff.2 ⟨before, part, behind, hparts, hpart, hbefore⟩
  rw [Option.some.inj (hfault.symm.trans hfirst)] at hrun
  refine ⟨?_, span, hrun⟩
  exact (runText_printLine hline₁ none hshort₁).1 (IntExpr.firstFault?_eq_none_iff.1 (by decide +kernel))

end ClassScript

import ClassScript.Proofs.Bare
import ClassScript.Token
import Mathlib.Data.Set.Insert

/-!
# The grammar

Which sequences of tokens are written forms of which trees, one rule for each production.  `Spells`
is the grammar of expressions, from the loosest rank to the tightest; `Writes` is that of statements,
with the class names that are known before and behind them.  Trees are bare.  The rules say nothing
of how a text is read: some texts are written by more than one of them.
-/

namespace ClassScript.Grammar

/-! ### Operators -/

/-- The operators that are read from the left and may be repeated. -/
inductive BinOp where
  | logic (op : LogicOp)
  | arith (op : ArithOp)
  deriving DecidableEq, Repr

/-- How tightly an expression binds, from the loosest on. -/
inductive Rank where
  | disjunction | conjunction | negation | comparison | sum | product | signed | chain | primary
  deriving DecidableEq, Repr

/-- The next tighter rank. -/
def Rank.next : Rank → Rank
  | disjunction => conjunction
  | conjunction => negation
  | negation => comparison
  | comparison => sum
  | sum => product
  | product => signed
  | signed => chain
  | chain | primary => primary

/-- The place of a rank in the order from the loosest to the tightest. -/
def Rank.tightness : Rank → Nat
  | disjunction => 0
  | conjunction => 1
  | negation => 2
  | comparison => 3
  | sum => 4
  | product => 5
  | signed => 6
  | chain => 7
  | primary => 8

theorem Rank.tightness_le_next (r : Rank) : r.tightness ≤ r.next.tightness := by
  cases r <;> decide

theorem Rank.eq_or_next {r q : Rank} (h : r.tightness ≤ q.tightness) :
    r = q ∨ r.next.tightness = r.tightness + 1 ∧ r.tightness < q.tightness := by
  revert h
  cases r <;> cases q <;> decide

namespace BinOp

/-- The rank of what an operator makes. -/
def rank : BinOp → Rank
  | logic .or => .disjunction
  | logic .and => .conjunction
  | arith .add | arith .sub => .sum
  | arith .mul | arith .div => .product

/-- The token of an operator. -/
def token : BinOp → TokenKind
  | logic .or => .keyword .kOr
  | logic .and => .keyword .kAnd
  | arith .add => .char '+'
  | arith .sub => .char '-'
  | arith .mul => .char '*'
  | arith .div => .char '/'

/-- The node that an operator makes. -/
def node : BinOp → Span → Node → Node → Node
  | logic op => (.logic · op)
  | arith op => (.arith · op)

end BinOp

/-- The token of a relational operator. -/
def comparatorToken : Comparator → TokenKind
  | .eq => .eq
  | .ne => .ne
  | .lt => .char '<'
  | .gt => .char '>'
  | .le => .le
  | .ge => .ge

/-! ### Expressions -/

/-- The tokens of a dotted name. -/
def pathText (path : List String) : List TokenKind := (path.map TokenKind.name).intersperse (.char '.')

/-- Texts with commas between them. -/
def commas (ws : List (List TokenKind)) : List TokenKind := List.intercalate [.char ','] ws

/-- A text in parentheses. -/
def parens (w : List TokenKind) : List TokenKind := .char '(' :: w ++ [.char ')']

/-- The constants that a single token stands for. -/
inductive Constant : TokenKind → Literal → Prop
  | number (n : Int64) : Constant (.number n) (.int n)
  | string (s : String) : Constant (.string s) (.str s)
  | true : Constant (.keyword .kTrue) (.bool true)
  | false : Constant (.keyword .kFalse) (.bool false)
  | none : Constant (.keyword .kNone) .none

/-- What the grammar of expressions has texts for. -/
inductive Phrase where
  | expr (rank : Rank) (n : Node)
  /-- Arguments and the parentheses around them. -/
  | args (ns : List Node)

/-- `Spells unit known p w`: in a program `unit`, where the classes `known` have been declared, `w` is
a text for `p`. -/
inductive Spells (unit : Nat) (known : Set String) : Phrase → List TokenKind → Prop
  /-- `test := and_test ('or' and_test)*` and the like for `and`, sums and products. With no operator
  at all, an expression of any rank is one of the next tighter rank. -/
  | binary {r : Rank} {n : Node} {w : List TokenKind} (more : List (BinOp × List TokenKind × Node))
    (first : Spells unit known (.expr r.next n) w) (rank : ∀ p ∈ more, p.1.rank = r)
    (rest : ∀ p ∈ more, Spells unit known (.expr r.next p.2.2) p.2.1) :
    Spells unit known (.expr r (more.foldl (fun l p => p.1.node {} l p.2.2) n))
      (w ++ more.flatMap fun p => p.1.token :: p.2.1)
  /-- `not_test := 'not' not_test` -/
  | not {n : Node} {w : List TokenKind} (arg : Spells unit known (.expr .negation n) w) :
    Spells unit known (.expr .negation (.not {} n)) (.keyword .kNot :: w)
  /-- `comparison := arith ('==' | '!=' | '<' | '>' | '<=' | '>=') arith` -/
  | compare {l r : Node} {u v : List TokenKind} (op : Comparator)
    (left : Spells unit known (.expr .sum l) u) (right : Spells unit known (.expr .sum r) v) :
    Spells unit known (.expr .comparison (.compare {} op l r)) (u ++ comparatorToken op :: v)
  /-- `unary := '-' unary` -/
  | minus {n : Node} {w : List TokenKind} (arg : Spells unit known (.expr .signed n) w) :
    Spells unit known (.expr .signed (.arith {} .sub (.literal {} (.int 0)) n)) (.char '-' :: w)
  /-- `postfix := primary ('.' Id '(' args ')')*` -/
  | call {n : Node} {w : List TokenKind} (more : List (String × List TokenKind × List Node))
    (first : Spells unit known (.expr .primary n) w)
    (rest : ∀ p ∈ more, Spells unit known (.args p.2.2) p.2.1) :
    Spells unit known (.expr .chain (more.foldl (fun o p => .call {} o p.1 p.2.2) n))
      (w ++ more.flatMap fun p => .char '.' :: .name p.1 :: p.2.1)
  /-- `primary := Number | String | 'True' | 'False' | 'None'` -/
  | literal {k : TokenKind} {v : Literal} (h : Constant k v) :
    Spells unit known (.expr .primary (.literal {} v)) [k]
  /-- `primary := '(' test ')'` -/
  | paren {n : Node} {w : List TokenKind} (inner : Spells unit known (.expr .disjunction n) w) :
    Spells unit known (.expr .primary n) (parens w)
  /-- `primary := 'str' '(' test ')'`, if no class has this name -/
  | str {n : Node} {w : List TokenKind} (free : "str" ∉ known)
    (arg : Spells unit known (.expr .disjunction n) w) :
    Spells unit known (.expr .primary (.stringify {} n)) (.name "str" :: parens w)
  /-- `primary := ClassName '(' args ')'` -/
  | new {c : String} {ns : List Node} {w : List TokenKind} (declared : c ∈ known)
    (args : Spells unit known (.args ns) w) :
    Spells unit known (.expr .primary (.new {} ⟨unit, c⟩ ns)) (.name c :: w)
  /-- `primary := dotted` -/
  | lookup {path : List String} (h : path ≠ []) :
    Spells unit known (.expr .primary (.lookup {} path)) (pathText path)
  /-- `primary := dotted '(' args ')'`, a method call on what stands before the last dot -/
  | dottedCall {path : List String} {m : String} {ns : List Node} {w : List TokenKind}
    (h : path ≠ []) (args : Spells unit known (.args ns) w) :
    Spells unit known (.expr .primary (.call {} (.lookup {} path) m ns)) (pathText (path ++ [m]) ++ w)
  /-- `args := [test (',' test)*]` -/
  | args (items : List (List TokenKind × Node))
    (each : ∀ p ∈ items, Spells unit known (.expr .disjunction p.2) p.1) :
    Spells unit known (.args (items.map Prod.snd)) (parens (commas (items.map Prod.fst)))

/-! ### Ranks -/

/-- An expression of the next tighter rank is one of a rank. -/
theorem Spells.looser {unit : Nat} {known : Set String} {r : Rank} {n : Node}
    {w : List TokenKind} (h : Spells unit known (.expr r.next n) w) :
    Spells unit known (.expr r n) w := by
  have := Spells.binary [] h (by simp) (by simp)
  simpa using this

/-- An expression of a rank is one of every looser rank. -/
theorem Spells.loosen {unit : Nat} {known : Set String} {r q : Rank} {n : Node} {w : List TokenKind}
    (h : Spells unit known (.expr q n) w) (hr : r.tightness ≤ q.tightness) :
    Spells unit known (.expr r n) w := by
  obtain ⟨d, hd⟩ := Nat.exists_eq_add_of_le hr
  induction d generalizing r with
  | zero =>
    obtain rfl | ⟨-, hlt⟩ := Rank.eq_or_next hr
    · exact h
    · omega
  | succ d ih =>
    obtain rfl | ⟨hn, hlt⟩ := Rank.eq_or_next hr
    · exact h
    · exact Spells.looser (ih (by omega) (by omega))

/-! ### Longer texts -/

/-- One more operand to the right of an operator. -/
theorem Spells.concat_op {unit : Nat} {known : Set String} (op : BinOp) {l r : Node}
    {u v : List TokenKind}
    (hl : Spells unit known (.expr op.rank l) u) (hr : Spells unit known (.expr op.rank.next r) v) :
    Spells unit known (.expr op.rank (op.node {} l r)) (u ++ op.token :: v) := by
  generalize hrank : op.rank = q at hl hr ⊢
  generalize hp : Phrase.expr q l = p at hl
  cases hl with
  | @binary _ n w more first rank rest =>
    cases hp
    have := Spells.binary (more ++ [(op, v, r)]) first
      (List.forall_mem_append.2 ⟨rank, List.forall_mem_singleton.2 hrank⟩)
      (List.forall_mem_append.2 ⟨rest, List.forall_mem_singleton.2 hr⟩)
    rw [List.foldl_append, List.flatMap_append, ← List.append_assoc] at this
    simpa using this
  | args => cases hp
  | _ =>
    cases hp
    cases op with
    | logic op => cases op <;> cases hrank
    | arith op => cases op <;> cases hrank

/-- One more call on what has been called. -/
theorem Spells.concat_call {unit : Nat} {known : Set String} {o : Node} {m : String} {ns : List Node}
    {u v : List TokenKind}
    (ho : Spells unit known (.expr .chain o) u) (hargs : Spells unit known (.args ns) v) :
    Spells unit known (.expr .chain (.call {} o m ns)) (u ++ .char '.' :: .name m :: v) := by
  generalize hp : Phrase.expr .chain o = p at ho
  cases ho with
  | @binary _ n w more first rank rest =>
    cases hp
    obtain rfl : more = [] := by
      rw [List.eq_nil_iff_forall_not_mem]
      rintro ⟨op, w, n⟩ hm
      have := rank _ hm
      cases op with
      | logic op => cases op <;> cases this
      | arith op => cases op <;> cases this
    have := Spells.call [(m, v, ns)] first (List.forall_mem_singleton.2 hargs)
    simpa using this
  | @call n w more first rest =>
    cases hp
    have := Spells.call (more ++ [(m, v, ns)]) first
      (List.forall_mem_append.2 ⟨rest, List.forall_mem_singleton.2 hargs⟩)
    rw [List.foldl_append, List.flatMap_append, ← List.append_assoc] at this
    simpa using this
  | _ => cases hp

/-! ### Statements -/

/-- The class names of a program as far as it is written. -/
structure ClassNames where
  /-- A class counts as declared from its header on. -/
  declared : Set String := ∅
  /-- A class counts as finished behind its last method. -/
  finished : Set String := ∅

/-- What the grammar of statements has texts for. -/
inductive Clause where
  | statement (n : Node)
  | statements (ns : List Node)
  /-- A block, from the end of the line before it. -/
  | suite (ns : List Node)
  | method (m : Method)
  | methods (ms : List Method)

/-- The parameters that a method is declared with, when `params` are those that count. -/
inductive Parameters : List String → List String → Prop
  | withSelf (params : List String) : Parameters (selfName :: params) params
  | withoutSelf {params : List String} (h : params.head? ≠ some selfName) : Parameters params params

/-- `Writes unit a c w b`: in a program `unit`, behind the class names `a`, `w` is a text for `c`, and
behind it the class names are `b`. -/
inductive Writes (unit : Nat) : ClassNames → Clause → List TokenKind → ClassNames → Prop
  /-- `simple := 'return' [test]` -/
  | ret {a : ClassNames} {n : Node} {w : List TokenKind}
    (value : Spells unit a.declared (.expr .disjunction n) w) :
    Writes unit a (.statement (.ret {} n)) (.keyword .kReturn :: w ++ [.newline]) a
  | retNone {a : ClassNames} :
    Writes unit a (.statement (.ret {} (.literal {} .none))) [.keyword .kReturn, .newline] a
  /-- `simple := 'print' '(' [test (',' test)*] ')'` -/
  | printCall {a : ClassNames} {ns : List Node} {w : List TokenKind}
    (args : Spells unit a.declared (.args ns) w) :
    Writes unit a (.statement (.print {} ns)) (.keyword .kPrint :: w ++ [.newline]) a
  /-- `simple := 'print' [test (',' test)*]` -/
  | print {a : ClassNames} (items : List (List TokenKind × Node))
    (each : ∀ p ∈ items, Spells unit a.declared (.expr .disjunction p.2) p.1) :
    Writes unit a (.statement (.print {} (items.map Prod.snd)))
      (.keyword .kPrint :: commas (items.map Prod.fst) ++ [.newline]) a
  /-- `simple := dotted '=' test` -/
  | assign {a : ClassNames} {x : String} {n : Node} {w : List TokenKind}
    (value : Spells unit a.declared (.expr .disjunction n) w) :
    Writes unit a (.statement (.assign {} x n)) (pathText [x] ++ .char '=' :: w ++ [.newline]) a
  | setField {a : ClassNames} {path : List String} {f : String} {n : Node} {w : List TokenKind}
    (h : path ≠ []) (value : Spells unit a.declared (.expr .disjunction n) w) :
    Writes unit a (.statement (.setField {} path f n))
      (pathText (path ++ [f]) ++ .char '=' :: w ++ [.newline]) a
  /-- `simple := test` -/
  | expr {a : ClassNames} {n : Node} {w : List TokenKind}
    (value : Spells unit a.declared (.expr .disjunction n) w) :
    Writes unit a (.statement n) (w ++ [.newline]) a
  /-- `if_stmt := 'if' test ':' suite` -/
  | ifThen {a b : ClassNames} {c : Node} {yes : List Node} {u v : List TokenKind}
    (cond : Spells unit a.declared (.expr .disjunction c) u) (body : Writes unit a (.suite yes) v b) :
    Writes unit a (.statement (.ifElse {} c (.block {} yes) none))
      (.keyword .kIf :: u ++ .char ':' :: v) b
  /-- `if_stmt := 'if' test ':' suite 'else' ':' suite` -/
  | ifElse {a b d : ClassNames} {c : Node} {yes no : List Node} {u v w : List TokenKind}
    (cond : Spells unit a.declared (.expr .disjunction c) u) (body : Writes unit a (.suite yes) v b)
    (other : Writes unit b (.suite no) w d) :
    Writes unit a (.statement (.ifElse {} c (.block {} yes) (some (.block {} no))))
      (.keyword .kIf :: u ++ .char ':' :: v ++ .keyword .kElse :: .char ':' :: w) d
  /-- `class_def := 'class' Id ['(' Id ')'] ':' Newline Indent method+ Dedent` for a name that is not
  declared yet and a parent that is finished -/
  | classDef {a b : ClassNames} {c : String} {parent : Option String} {ms : List Method}
    {w : List TokenKind} (fresh : c ∉ a.declared) (known : ∀ p ∈ parent, p ∈ a.finished)
    (body : Writes unit { a with declared := insert c a.declared } (.methods ms) w b)
    (nonempty : ms ≠ []) :
    Writes unit a
      (.statement (.classDef {} ⟨⟨unit, c⟩, parent.map (ClassId.mk unit), ms⟩))
      (.keyword .kClass :: .name c :: (parent.map fun p => parens [.name p]).getD [] ++
        .char ':' :: .newline :: .indent :: w ++ [.dedent])
      { b with finished := insert c b.finished }
  /-- `method := 'def' Id '(' [Id (',' Id)*] ')' ':' suite` -/
  | method {a b : ClassNames} {m : String} {written params : List String} {body : List Node}
    {w : List TokenKind} (h : Parameters written params) (suite : Writes unit a (.suite body) w b) :
    Writes unit a (.method ⟨m, params, .methodBody {} (.block {} body)⟩)
      (.keyword .kDef :: .name m :: parens (commas (written.map fun x => [.name x])) ++
        .char ':' :: w) b
  /-- `suite := Newline Indent statement* Dedent` -/
  | suite {a b : ClassNames} {ns : List Node} {w : List TokenKind}
    (body : Writes unit a (.statements ns) w b) :
    Writes unit a (.suite ns) (.newline :: .indent :: w ++ [.dedent]) b
  | noStatements {a : ClassNames} : Writes unit a (.statements []) [] a
  | statements {a b d : ClassNames} {n : Node} {ns : List Node} {u v : List TokenKind}
    (first : Writes unit a (.statement n) u b) (rest : Writes unit b (.statements ns) v d) :
    Writes unit a (.statements (n :: ns)) (u ++ v) d
  | noMethods {a : ClassNames} : Writes unit a (.methods []) [] a
  | methods {a b d : ClassNames} {m : Method} {ms : List Method} {u v : List TokenKind}
    (first : Writes unit a (.method m) u b) (rest : Writes unit b (.methods ms) v d) :
    Writes unit a (.methods (m :: ms)) (u ++ v) d

end ClassScript.Grammar

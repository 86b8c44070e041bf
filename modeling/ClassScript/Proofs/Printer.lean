import ClassScript.Proofs.Grammar
import ClassScript.Proofs.Rendering

/-!
# Programs as lines

How a tree is written: an expression as words, with parentheses only where an operand binds more
loosely than its place asks for; a statement as lines, with two spaces a level and `self` in front of
all parameters.  `WellFormed` are the trees that this is meant for.  Main statement: they have words
for all their tokens (`Tree.writable`).
-/

namespace ClassScript

open Grammar
open Source (Line isName hasWord)

/-! ### Expressions -/

/-- The token of a constant. -/
def Literal.token : Literal → TokenKind
  | .none => .keyword .kNone
  | .bool true => .keyword .kTrue
  | .bool false => .keyword .kFalse
  | .int n => .number n
  | .str s => .string s

namespace Node

/-- How tightly an expression binds as it stands. -/
def rank : Node → Rank
  | arith _ op _ _ => (BinOp.arith op).rank
  | logic _ op _ _ => (BinOp.logic op).rank
  | not _ _ => .negation
  | compare _ _ _ _ => .comparison
  | call _ _ _ _ => .chain
  | _ => .primary

/-- The words of an operand in a place for a rank. -/
def operand (r : Rank) (n : Node) (w : List TokenKind) : List TokenKind :=
  if r.tightness ≤ n.rank.tightness then w else parens w

/-- The words of an expression. -/
def words : Node → List TokenKind
  | literal _ v => [v.token]
  | lookup _ path => pathText path
  | call _ object m args =>
    operand .chain object object.words ++ .char '.' :: .name m :: parens (commas (args.map words))
  | stringify _ arg => .name "str" :: parens arg.words
  | arith _ op l r =>
    let o := BinOp.arith op
    operand o.rank l l.words ++ o.token :: operand o.rank.next r r.words
  | logic _ op l r =>
    let o := BinOp.logic op
    operand o.rank l l.words ++ o.token :: operand o.rank.next r r.words
  | not _ arg => .keyword .kNot :: operand .negation arg arg.words
  | compare _ op l r => operand .sum l l.words ++ comparatorToken op :: operand .sum r r.words
  | new _ cls args => .name cls.name :: parens (commas (args.map words))
  | _ => []
termination_by n => n
decreasing_by
  all_goals refine sizeOf_lt_of_mem_children ?_
  all_goals grind [children]

/-! ### Statements -/

/-- The lines of a statement that begins at a level. -/
def lines (level : Nat) : Node → List Line
  | assign _ x v => [⟨level, pathText [x] ++ .char '=' :: v.words⟩]
  | setField _ path f v => [⟨level, pathText (path ++ [f]) ++ .char '=' :: v.words⟩]
  | print _ args => [⟨level, .keyword .kPrint :: commas (args.map words)⟩]
  | ret _ v => [⟨level, .keyword .kReturn :: v.words⟩]
  | ifElse _ c yes none =>
    ⟨level, .keyword .kIf :: c.words ++ [.char ':']⟩ :: yes.lines (level + 1)
  | ifElse _ c yes (some no) =>
    ⟨level, .keyword .kIf :: c.words ++ [.char ':']⟩ :: yes.lines (level + 1) ++
      ⟨level, [.keyword .kElse, .char ':']⟩ :: no.lines (level + 1)
  | classDef _ d =>
    ⟨level, .keyword .kClass :: .name d.id.name ::
        (d.parent.map fun p => parens [.name p.name]).getD [] ++ [.char ':']⟩ ::
      d.methods.flatMap fun m =>
        ⟨level + 1, .keyword .kDef :: .name m.name ::
            parens (commas ((selfName :: m.params).map fun x => [.name x])) ++ [.char ':']⟩ ::
          m.body.lines (level + 2)
  | block _ body => body.flatMap (lines level)
  | methodBody _ body => body.lines level
  | n => [⟨level, n.words⟩]
termination_by n => n
decreasing_by
  all_goals refine sizeOf_lt_of_mem_children ?_
  all_goals grind [children]

/-- The text of a program. -/
def render (n : Node) : String := String.ofList (Source.render (n.lines 0))

end Node

/-- The lines of a method that begins at a level. -/
def MethodOf.lines (level : Nat) (m : Method) : List Line :=
  ⟨level, .keyword .kDef :: .name m.name ::
      parens (commas ((selfName :: m.params).map fun x => [.name x])) ++ [.char ':']⟩ ::
    m.body.lines (level + 1)

theorem Node.lines_classDef (level : Nat) (s : Span) (d : ClassDecl) :
    (classDef s d).lines level =
      ⟨level, .keyword .kClass :: .name d.id.name ::
          (d.parent.map fun p => parens [.name p.name]).getD [] ++ [.char ':']⟩ ::
        d.methods.flatMap (MethodOf.lines (level + 1)) := by
  rw [lines]
  rfl

/-- The lines of what the grammar has texts for. -/
def Grammar.Clause.lines (level : Nat) : Clause → List Line
  | statement n => n.lines level
  | statements ns => ns.flatMap (Node.lines level)
  | suite ns => ns.flatMap (Node.lines (level + 1))
  | method m => m.lines level
  | methods ms => ms.flatMap (MethodOf.lines level)

/-! ### Trees of programs -/

namespace Grammar

/-- The trees of expressions where the classes `known` have been declared. -/
inductive Expression (unit : Nat) (known : Set String) : Node → Prop
  | literal {s : Span} {v : Literal} (h : ∀ n, v = .int n → 0 ≤ n) : Expression unit known (.literal s v)
  | lookup {s : Span} {path : List String} (ne : path ≠ []) (names : ∀ x ∈ path, isName x = true) :
    Expression unit known (.lookup s path)
  | call {s : Span} {o : Node} {m : String} {ns : List Node} (object : Expression unit known o)
    (name : isName m = true) (args : ∀ n ∈ ns, Expression unit known n) :
    Expression unit known (.call s o m ns)
  /-- `str` is read as a conversion only where no class has this name. -/
  | stringify {s : Span} {n : Node} (free : "str" ∉ known) (arg : Expression unit known n) :
    Expression unit known (.stringify s n)
  | arith {s : Span} {op : ArithOp} {l r : Node} (left : Expression unit known l)
    (right : Expression unit known r) : Expression unit known (.arith s op l r)
  | logic {s : Span} {op : LogicOp} {l r : Node} (left : Expression unit known l)
    (right : Expression unit known r) : Expression unit known (.logic s op l r)
  | compare {s : Span} {op : Comparator} {l r : Node} (left : Expression unit known l)
    (right : Expression unit known r) : Expression unit known (.compare s op l r)
  | not {s : Span} {n : Node} (arg : Expression unit known n) : Expression unit known (.not s n)
  | new {s : Span} {c : String} {ns : List Node} (declared : c ∈ known) (name : isName c = true)
    (args : ∀ n ∈ ns, Expression unit known n) : Expression unit known (.new s ⟨unit, c⟩ ns)

/-- `Tree unit a c b`: `c` is a tree that may stand in a program `unit` behind the class names `a`,
and behind it the class names are `b`. -/
inductive Tree (unit : Nat) : ClassNames → Clause → ClassNames → Prop
  | ret {a : ClassNames} {s : Span} {n : Node} (value : Expression unit a.declared n) :
    Tree unit a (.statement (.ret s n)) a
  | print {a : ClassNames} {s : Span} {ns : List Node} (args : ∀ n ∈ ns, Expression unit a.declared n) :
    Tree unit a (.statement (.print s ns)) a
  | assign {a : ClassNames} {s : Span} {x : String} {n : Node} (name : isName x = true)
    (value : Expression unit a.declared n) : Tree unit a (.statement (.assign s x n)) a
  | setField {a : ClassNames} {s : Span} {path : List String} {f : String} {n : Node} (ne : path ≠ [])
    (names : ∀ x ∈ path, isName x = true) (name : isName f = true)
    (value : Expression unit a.declared n) : Tree unit a (.statement (.setField s path f n)) a
  | expr {a : ClassNames} {n : Node} (value : Expression unit a.declared n) :
    Tree unit a (.statement n) a
  | ifThen {a b : ClassNames} {s t : Span} {c : Node} {yes : List Node}
    (cond : Expression unit a.declared c) (ne : yes ≠ []) (body : Tree unit a (.statements yes) b) :
    Tree unit a (.statement (.ifElse s c (.block t yes) none)) b
  | ifElse {a b d : ClassNames} {s t t' : Span} {c : Node} {yes no : List Node}
    (cond : Expression unit a.declared c) (ne : yes ≠ []) (body : Tree unit a (.statements yes) b)
    (ne' : no ≠ []) (other : Tree unit b (.statements no) d) :
    Tree unit a (.statement (.ifElse s c (.block t yes) (some (.block t' no)))) d
  /-- A class has a new name, a parent that is finished, and a method. -/
  | classDef {a b : ClassNames} {s : Span} {c : String} {parent : Option String} {ms : List Method}
    (name : isName c = true) (fresh : c ∉ a.declared)
    (known : ∀ p ∈ parent, p ∈ a.finished ∧ isName p = true) (ne : ms ≠ [])
    (body : Tree unit { a with declared := insert c a.declared } (.methods ms) b) :
    Tree unit a (.statement (.classDef s ⟨⟨unit, c⟩, parent.map (ClassId.mk unit), ms⟩))
      { b with finished := insert c b.finished }
  | method {a b : ClassNames} {s t : Span} {m : String} {params : List String} {body : List Node}
    (name : isName m = true) (names : ∀ x ∈ params, isName x = true) (ne : body ≠ [])
    (suite : Tree unit a (.statements body) b) :
    Tree unit a (.method ⟨m, params, .methodBody s (.block t body)⟩) b
  | noStatements {a : ClassNames} : Tree unit a (.statements []) a
  | statements {a b d : ClassNames} {n : Node} {ns : List Node} (first : Tree unit a (.statement n) b)
    (rest : Tree unit b (.statements ns) d) : Tree unit a (.statements (n :: ns)) d
  | noMethods {a : ClassNames} : Tree unit a (.methods []) a
  | methods {a b d : ClassNames} {m : Method} {ms : List Method} (first : Tree unit a (.method m) b)
    (rest : Tree unit b (.methods ms) d) : Tree unit a (.methods (m :: ms)) d

end Grammar

/-- A tree of a whole program. -/
def Node.WellFormed (unit : Nat) (n : Node) : Prop :=
  ∃ s ns b, n = .block s ns ∧ Tree unit {} (.statements ns) b

/-! ### There is a text -/

theorem hasWord_pathText {path : List String} (h : ∀ x ∈ path, isName x = true) :
    ∀ k ∈ pathText path, hasWord k = true := by
  induction path with
  | nil => exact List.forall_mem_nil _
  | cons x xs ih =>
    have hx : isName x = true := h x List.mem_cons_self
    have hxs := ih fun y hy => h y (List.mem_cons_of_mem x hy)
    cases xs with
    | nil =>
      intro k hk
      rw [List.mem_singleton.1 hk]
      exact hx
    | cons y ys =>
      intro k hk
      rcases List.mem_cons.1 hk with rfl | hk
      · exact hx
      · rcases List.mem_cons.1 hk with rfl | hk
        · rfl
        · exact hxs k hk

theorem hasWord_parens {w : List TokenKind} (h : ∀ k ∈ w, hasWord k = true) :
    ∀ k ∈ parens w, hasWord k = true := by
  simp only [parens, List.forall_mem_append, List.forall_mem_cons]
  exact ⟨⟨rfl, h⟩, rfl, List.forall_mem_nil _⟩

theorem hasWord_commas {ws : List (List TokenKind)} (h : ∀ w ∈ ws, ∀ k ∈ w, hasWord k = true) :
    ∀ k ∈ commas ws, hasWord k = true := by
  induction ws with
  | nil => exact List.forall_mem_nil _
  | cons w ws ih =>
    have hw := h w List.mem_cons_self
    have hws := ih fun v hv => h v (List.mem_cons_of_mem w hv)
    cases ws with
    | nil =>
      rw [commas, List.intercalate_singleton]
      exact hw
    | cons v vs =>
      rw [commas, List.intercalate_cons_cons]
      simp only [List.forall_mem_append, List.forall_mem_cons]
      exact ⟨⟨hw, rfl, List.forall_mem_nil _⟩, hws⟩

theorem hasWord_operand {r : Rank} {n : Node} {w : List TokenKind} (h : ∀ k ∈ w, hasWord k = true) :
    ∀ k ∈ Node.operand r n w, hasWord k = true := by
  unfold Node.operand
  split
  · exact h
  · exact hasWord_parens h

/-- Words with commas between them, in parentheses, for trees that have words. -/
theorem hasWord_args {ns : List Node} (h : ∀ n ∈ ns, ∀ k ∈ n.words, hasWord k = true) :
    ∀ k ∈ parens (commas (ns.map Node.words)), hasWord k = true := by
  apply hasWord_parens
  apply hasWord_commas
  intro w hw
  obtain ⟨n, hn, rfl⟩ := List.mem_map.1 hw
  exact h n hn

theorem hasWord_token (op : BinOp) : hasWord op.token = true := by
  cases op with
  | logic op => cases op <;> rfl
  | arith op => cases op <;> rfl

theorem hasWord_comparatorToken (op : Comparator) : hasWord (comparatorToken op) = true := by
  cases op <;> rfl

namespace Grammar

variable {unit : Nat} {known : Set String} {a b : ClassNames}

theorem Expression.hasWord {n : Node} (h : Expression unit known n) :
    ∀ k ∈ n.words, hasWord k = true := by
  induction h with
  | @literal s v h =>
    rw [Node.words]
    refine List.forall_mem_cons.2 ⟨?_, List.forall_mem_nil _⟩
    cases v with
    | none => rfl
    | bool b => cases b <;> rfl
    | int n => exact decide_eq_true (h n rfl)
    | str t => rfl
  | lookup ne names =>
    rw [Node.words]
    exact hasWord_pathText names
  | call object name args iho ih =>
    rw [Node.words]
    simp only [List.forall_mem_append, List.forall_mem_cons]
    exact ⟨hasWord_operand iho, rfl, name, hasWord_args ih⟩
  | stringify free arg ih =>
    rw [Node.words]
    exact List.forall_mem_cons.2 ⟨by decide, hasWord_parens ih⟩
  | arith left right ihl ihr =>
    rw [Node.words]
    simp only [List.forall_mem_append, List.forall_mem_cons]
    exact ⟨hasWord_operand ihl, hasWord_token _, hasWord_operand ihr⟩
  | logic left right ihl ihr =>
    rw [Node.words]
    simp only [List.forall_mem_append, List.forall_mem_cons]
    exact ⟨hasWord_operand ihl, hasWord_token _, hasWord_operand ihr⟩
  | compare left right ihl ihr =>
    rw [Node.words]
    simp only [List.forall_mem_append, List.forall_mem_cons]
    exact ⟨hasWord_operand ihl, hasWord_comparatorToken _, hasWord_operand ihr⟩
  | not arg ih =>
    rw [Node.words]
    exact List.forall_mem_cons.2 ⟨rfl, hasWord_operand ih⟩
  | new declared name args ih =>
    rw [Node.words]
    exact List.forall_mem_cons.2 ⟨name, hasWord_args ih⟩

theorem pathText_ne_nil {path : List String} (h : path ≠ []) : pathText path ≠ [] := by
  intro h0
  have hlen := congrArg List.length h0
  rw [pathText, List.length_intersperse, List.length_map, List.length_nil] at hlen
  have := List.length_pos_iff.2 h
  omega

theorem Expression.words_ne_nil {n : Node} (h : Expression unit known n) : n.words ≠ [] := by
  cases h with
  | lookup ne names =>
    rw [Node.words]
    exact pathText_ne_nil ne
  | call | arith | logic | compare =>
    rw [Node.words]
    exact List.append_ne_nil_of_right_ne_nil _ (List.cons_ne_nil _ _)
  | literal | stringify | not | new =>
    rw [Node.words]
    exact List.cons_ne_nil _ _

/-- An expression stands on a line of its own. -/
theorem Expression.lines {n : Node} (h : Expression unit known n) (level : Nat) :
    n.lines level = [⟨level, n.words⟩] := by
  cases h
  all_goals rw [Node.lines]
  all_goals nofun

/-- A line has words, and a text for each of them. -/
def Writable (l : Line) : Prop := l.words ≠ [] ∧ ∀ k ∈ l.words, hasWord k = true

theorem writable_header {level : Nat} {k : TokenKind} {w : List TokenKind} (hk : hasWord k = true)
    (hw : ∀ j ∈ w, hasWord j = true) : Writable ⟨level, k :: w ++ [.char ':']⟩ := by
  refine ⟨List.cons_ne_nil _ _, ?_⟩
  simp only [List.forall_mem_append, List.forall_mem_cons]
  exact ⟨⟨hk, hw⟩, rfl, List.forall_mem_nil _⟩

theorem writable_assignment (level : Nat) {path : List String} {n : Node}
    (names : ∀ x ∈ path, isName x = true) (value : Expression unit known n) :
    Writable ⟨level, pathText path ++ .char '=' :: n.words⟩ := by
  refine ⟨List.append_ne_nil_of_right_ne_nil _ (List.cons_ne_nil _ _), ?_⟩
  simp only [List.forall_mem_append, List.forall_mem_cons]
  exact ⟨hasWord_pathText names, rfl, value.hasWord⟩

/-- All lines of a tree can be written. -/
theorem Tree.writable {c : Clause} (h : Tree unit a c b) (level : Nat) :
    ∀ l ∈ c.lines level, Writable l := by
  induction h generalizing level with
  | ret value =>
    rw [Clause.lines, Node.lines]
    refine List.forall_mem_cons.2 ⟨⟨List.cons_ne_nil _ _, ?_⟩, List.forall_mem_nil _⟩
    exact List.forall_mem_cons.2 ⟨rfl, value.hasWord⟩
  | print args =>
    rw [Clause.lines, Node.lines]
    refine List.forall_mem_cons.2 ⟨⟨List.cons_ne_nil _ _, ?_⟩, List.forall_mem_nil _⟩
    refine List.forall_mem_cons.2 ⟨rfl, hasWord_commas ?_⟩
    intro w hw
    obtain ⟨n, hn, rfl⟩ := List.mem_map.1 hw
    exact (args n hn).hasWord
  | assign name value =>
    rw [Clause.lines, Node.lines]
    have := writable_assignment level (List.forall_mem_singleton.2 name) value
    exact List.forall_mem_cons.2 ⟨this, List.forall_mem_nil _⟩
  | setField ne names name value =>
    rw [Clause.lines, Node.lines]
    have hpath := List.forall_mem_append.2 ⟨names, List.forall_mem_singleton.2 name⟩
    exact List.forall_mem_cons.2 ⟨writable_assignment level hpath value, List.forall_mem_nil _⟩
  | expr value =>
    rw [Clause.lines, value.lines]
    exact List.forall_mem_cons.2 ⟨⟨value.words_ne_nil, value.hasWord⟩, List.forall_mem_nil _⟩
  | ifThen cond ne body ih =>
    rw [Clause.lines, Node.lines, Node.lines]
    exact List.forall_mem_cons.2 ⟨writable_header rfl cond.hasWord, ih (level + 1)⟩
  | ifElse cond ne body ne' other ih ih' =>
    rw [Clause.lines, Node.lines, Node.lines, Node.lines]
    have helse : Writable ⟨level, [.keyword .kElse, .char ':']⟩ :=
      writable_header (w := []) rfl (List.forall_mem_nil _)
    refine List.forall_mem_append.2 ⟨?_, List.forall_mem_cons.2 ⟨helse, ih' (level + 1)⟩⟩
    exact List.forall_mem_cons.2 ⟨writable_header rfl cond.hasWord, ih (level + 1)⟩
  | @classDef a b s c parent ms name fresh known ne body ih =>
    rw [Clause.lines, Node.lines_classDef]
    refine List.forall_mem_cons.2 ⟨writable_header rfl ?_, ih (level + 1)⟩
    refine List.forall_mem_cons.2 ⟨name, ?_⟩
    cases parent with
    | none => exact List.forall_mem_nil _
    | some p =>
      obtain ⟨-, hp⟩ := known p rfl
      exact hasWord_parens (List.forall_mem_cons.2 ⟨hp, List.forall_mem_nil _⟩)
  | @method a b s t m params body name names ne suite ih =>
    rw [Clause.lines, MethodOf.lines, Node.lines, Node.lines]
    refine List.forall_mem_cons.2 ⟨writable_header rfl ?_, ih (level + 1)⟩
    refine List.forall_mem_cons.2 ⟨name, hasWord_parens (hasWord_commas ?_)⟩
    intro w hw
    obtain ⟨x, hx, rfl⟩ := List.mem_map.1 hw
    refine List.forall_mem_cons.2 ⟨?_, List.forall_mem_nil _⟩
    rcases List.mem_cons.1 hx with rfl | hx
    · decide
    · exact names x hx
  | noStatements | noMethods => exact List.forall_mem_nil _
  | statements first rest ih ih' | methods first rest ih ih' =>
    rw [Clause.lines, List.flatMap_cons]
    exact List.forall_mem_append.2 ⟨ih level, ih' level⟩

end Grammar

end ClassScript

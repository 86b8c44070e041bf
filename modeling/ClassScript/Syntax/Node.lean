import ClassScript.Span
import ClassScript.Syntax.Operator

/-!
# Program trees

Every construct is a node: statements and expressions alike are executed and have a value.  A class
is known by the program that declares it and its name there, so a node that makes an instance names
its class and holds nothing of it.  Main statement: a property of all nodes may be proved from that
of the nodes directly below (`Node.induction`).
-/

namespace ClassScript

/-- The constants that may be written in a program. -/
inductive Literal where
  | none
  | bool (b : Bool)
  | int (n : Int64)
  | str (text : String)
  deriving DecidableEq, Repr, Inhabited

/-- A class: its name, and the program that declares it. -/
structure ClassId where
  unit : Nat
  name : String
  deriving DecidableEq, Repr, Inhabited

/-- The name under which a receiver is bound in its methods and in its own fields. -/
def selfName : String := "self"

/-- A method over bodies of type `β`; the receiver is not among its parameters. -/
structure MethodOf (β : Type) where
  name : String
  params : List String
  body : β
  deriving Repr, Inhabited

/-- A class over method bodies of type `β`. -/
structure ClassOf (β : Type) where
  id : ClassId
  parent : Option ClassId
  methods : List (MethodOf β)
  deriving Repr, Inhabited

/-- A node of a program tree, with the text it was read from. -/
inductive Node where
  | literal (span : Span) (value : Literal)
  /-- `name = value` -/
  | assign (span : Span) (name : String) (value : Node)
  /-- `a.b.c` -/
  | lookup (span : Span) (path : List String)
  /-- `print a, b, c` -/
  | print (span : Span) (args : List Node)
  /-- `object.method(args)` -/
  | call (span : Span) (object : Node) (method : String) (args : List Node)
  /-- `str(arg)` -/
  | stringify (span : Span) (arg : Node)
  | arith (span : Span) (op : ArithOp) (left right : Node)
  /-- Statements one after another. -/
  | block (span : Span) (body : List Node)
  /-- `return value` -/
  | ret (span : Span) (value : Node)
  | classDef (span : Span) (decl : ClassOf Node)
  /-- `object.field = value` for a dotted `object` -/
  | setField (span : Span) (object : List String) (field : String) (value : Node)
  | ifElse (span : Span) (cond yes : Node) (no : Option Node)
  | logic (span : Span) (op : LogicOp) (left right : Node)
  | not (span : Span) (arg : Node)
  | compare (span : Span) (op : Comparator) (left right : Node)
  /-- `Class(args)` -/
  | new (span : Span) (cls : ClassId) (args : List Node)
  /-- The body of a method, where a `return` ends. -/
  | methodBody (span : Span) (body : Node)
  deriving Repr, Inhabited

/-- A method of a program. -/
abbrev Method := MethodOf Node

/-- A class of a program. -/
abbrev ClassDecl := ClassOf Node

/-- The number of arguments that a method takes. -/
def MethodOf.arity {β : Type} (m : MethodOf β) : Nat := m.params.length

namespace Node

/-- The text that a node was read from. -/
def span : Node → Span
  | literal s _ | assign s _ _ | lookup s _ | print s _ | call s _ _ _ | stringify s _
  | arith s _ _ _ | block s _ | ret s _ | classDef s _ | setField s _ _ _ | ifElse s _ _ _
  | logic s _ _ _ | not s _ | compare s _ _ _ | new s _ _ | methodBody s _ => s

/-- The nodes directly below a node, in the order of the text. -/
def children : Node → List Node
  | literal _ _ | lookup _ _ => []
  | assign _ _ value | setField _ _ _ value | ret _ value => [value]
  | stringify _ arg | not _ arg => [arg]
  | methodBody _ body => [body]
  | print _ args | new _ _ args => args
  | call _ object _ args => object :: args
  | arith _ _ left right | logic _ _ left right | compare _ _ left right => [left, right]
  | block _ body => body
  | classDef _ decl => decl.methods.map MethodOf.body
  | ifElse _ cond yes no => cond :: yes :: no.toList

theorem sizeOf_lt_of_mem_children {n c : Node} (h : c ∈ n.children) : sizeOf c < sizeOf n := by
  cases n with
  | literal s v | lookup s p => simp [children] at h
  | assign s x v | setField s p f v | ret s v | stringify s v | not s v | methodBody s v =>
    obtain rfl : c = v := by simpa [children] using h
    simp only [assign.sizeOf_spec, setField.sizeOf_spec, ret.sizeOf_spec, stringify.sizeOf_spec,
      not.sizeOf_spec, methodBody.sizeOf_spec]
    omega
  | arith s op l r | logic s op l r | compare s op l r =>
    obtain rfl | rfl : c = l ∨ c = r := by simpa [children] using h
    all_goals
      simp only [arith.sizeOf_spec, logic.sizeOf_spec, compare.sizeOf_spec]
      omega
  | print s args | new s cls args | block s args =>
    have hs : sizeOf c < sizeOf args := List.sizeOf_lt_of_mem h
    simp only [print.sizeOf_spec, new.sizeOf_spec, block.sizeOf_spec]
    omega
  | call s object m args =>
    rw [call.sizeOf_spec]
    obtain rfl | h : c = object ∨ c ∈ args := by simpa [children] using h
    · omega
    · have hs := List.sizeOf_lt_of_mem h
      omega
  | classDef s d =>
    obtain ⟨id, parent, methods⟩ := d
    obtain ⟨m, hm, rfl⟩ : ∃ m ∈ methods, m.body = c := by simpa [children] using h
    have hs := List.sizeOf_lt_of_mem hm
    obtain ⟨name, params, body⟩ := m
    simp only [classDef.sizeOf_spec, ClassOf.mk.sizeOf_spec, MethodOf.mk.sizeOf_spec] at hs ⊢
    omega
  | ifElse s cond yes no =>
    rw [ifElse.sizeOf_spec]
    cases no with
    | none =>
      obtain rfl | rfl : c = cond ∨ c = yes := by simpa [children] using h
      all_goals omega
    | some no =>
      rw [Option.some.sizeOf_spec]
      obtain rfl | rfl | rfl : c = cond ∨ c = yes ∨ c = no := by simpa [children] using h
      all_goals omega

/-- What holds of a node whenever it holds of the nodes directly below holds of every node. -/
theorem induction {P : Node → Prop} (step : ∀ n : Node, (∀ c ∈ n.children, P c) → P n) (n : Node) :
    P n :=
  step n fun c _ => induction step c
termination_by n
decreasing_by exact sizeOf_lt_of_mem_children ‹_›

/-- The nodes directly below a node that may be carried out with it: the methods of a class are not. -/
def parts : Node → List Node
  | classDef _ _ => []
  | n => n.children

theorem mem_children_of_mem_parts {n c : Node} (h : c ∈ n.parts) : c ∈ n.children := by
  cases n with
  | classDef s d => cases h
  | _ => exact h

/-- The name that a node binds in the scope when it is carried out. -/
def bound? : Node → Option String
  | assign _ name _ => some name
  | classDef _ decl => some decl.id.name
  | _ => none

/-- The body of a method, where a `return` ends. -/
def IsBody (n : Node) : Prop := ∃ span body, n = methodBody span body

/-- A node that stands anywhere in a tree. -/
inductive Has : Node → Node → Prop
  | self (n : Node) : Has n n
  | child {n c m : Node} (h : c ∈ n.children) (hm : Has c m) : Has n m

theorem Has.trans {n m k : Node} (h : n.Has m) (h' : m.Has k) : n.Has k := by
  induction h with
  | self => exact h'
  | child hc _ ih => exact .child hc (ih h')

/-- All nodes of a tree are as `Q` says. -/
def All (Q : Node → Prop) (n : Node) : Prop := ∀ m, n.Has m → Q m

namespace All

variable {Q Q' : Node → Prop} {n : Node}

theorem self (h : n.All Q) : Q n := h n (.self n)

theorem has (h : n.All Q) {m : Node} (hm : n.Has m) : m.All Q := fun k hk => h k (hm.trans hk)

theorem child (h : n.All Q) {c : Node} (hc : c ∈ n.children) : c.All Q := h.has (.child hc (.self c))

theorem mono (h : n.All Q) (hQ : ∀ m, Q m → Q' m) : n.All Q' := fun m hm => hQ m (h m hm)

theorem of_children (h : Q n) (hc : ∀ c ∈ n.children, c.All Q) : n.All Q := by
  intro m hm
  cases hm with
  | self => exact h
  | child hmem hm => exact hc _ hmem m hm

end All

end Node

end ClassScript

import ClassScript.Proofs.Acceptance

/-!
# The shape of trees that have been read

A node whose value another one needs, as an operand, an argument or a condition, is an expression through
and through in the tree of a program that has been read, and a method has a body where a `return` ends.
Main statement: `ofTokens_regular`.
-/

namespace ClassScript

namespace Node

/-- The nodes directly below a node whose values it needs: operands, arguments and conditions. -/
def operands : Node → List Node
  | literal _ _ | lookup _ _ | block _ _ | classDef _ _ | methodBody _ _ => []
  | assign _ _ value | setField _ _ _ value | ret _ value => [value]
  | stringify _ arg | not _ arg => [arg]
  | print _ args | new _ _ args => args
  | call _ object _ args => object :: args
  | arith _ _ left right | logic _ _ left right | compare _ _ left right => [left, right]
  | ifElse _ cond _ _ => [cond]

/-- The methods that a node itself defines. -/
def methods : Node → List Method
  | classDef _ d => d.methods
  | _ => []

/-- A node that expressions are made of; where it makes an instance, this is one of a class of `known`. -/
def IsTerm (known : ClassId → Prop) : Node → Prop
  | literal _ _ | lookup _ _ | call _ _ _ _ | stringify _ _ | arith _ _ _ _ | logic _ _ _ _ | not _ _
  | compare _ _ _ _ => True
  | new _ cls _ => known cls
  | _ => False

/-- An expression, with no statement anywhere in it. -/
def IsExpression (n : Node) : Prop := n.All (IsTerm fun _ => True)

/-- A node has expressions for operands, and its methods have bodies where a `return` ends. -/
structure Proper (n : Node) : Prop where
  operands : ∀ c ∈ n.operands, c.IsExpression
  bodies : ∀ m ∈ n.methods, m.body.IsBody

/-- A tree in which all nodes have such operands and methods. -/
def Regular (n : Node) : Prop := n.All Proper

theorem IsTerm.mono {known known' : ClassId → Prop} {n : Node} (h : n.IsTerm known)
    (hk : ∀ c, known c → known' c) : n.IsTerm known' := by
  cases n with
  | new s cls args => exact hk cls h
  | _ => exact h

theorem IsTerm.children_eq {known : ClassId → Prop} {n : Node} (h : n.IsTerm known) :
    n.children = n.operands := by
  cases n <;> first | rfl | cases h

theorem IsTerm.methods_eq {known : ClassId → Prop} {n : Node} (h : n.IsTerm known) : n.methods = [] := by
  cases n <;> first | rfl | cases h

theorem IsExpression.regular {n : Node} (h : n.IsExpression) : n.Regular := by
  intro m hm
  have hterm := h m hm
  refine ⟨fun c hc => (h.has hm).child (hterm.children_eq ▸ hc), ?_⟩
  rw [hterm.methods_eq]
  exact List.forall_mem_nil _

/-- A statement is regular if nothing is below it but expressions whose values it needs. -/
theorem Regular.of_operands {n : Node} (hchildren : n.children = n.operands) (hmethods : n.methods = [])
    (h : ∀ c ∈ n.operands, c.IsExpression) : n.Regular := by
  refine .of_children ⟨h, ?_⟩ fun c hc => (h c (hchildren ▸ hc)).regular
  rw [hmethods]
  exact List.forall_mem_nil _

theorem regular_block {s : Span} {body : List Node} (h : ∀ n ∈ body, n.Regular) : (block s body).Regular :=
  .of_children ⟨List.forall_mem_nil _, List.forall_mem_nil _⟩ h

theorem regular_methodBody {s : Span} {body : Node} (h : body.Regular) : (methodBody s body).Regular :=
  .of_children ⟨List.forall_mem_nil _, List.forall_mem_nil _⟩ (List.forall_mem_singleton.2 h)

theorem regular_ifElse {s : Span} {cond yes : Node} {no : Option Node} (hcond : cond.IsExpression)
    (hyes : yes.Regular) (hno : ∀ n ∈ no, n.Regular) : (ifElse s cond yes no).Regular := by
  refine .of_children ⟨List.forall_mem_singleton.2 hcond, List.forall_mem_nil _⟩ ?_
  refine List.forall_mem_cons.2 ⟨hcond.regular, List.forall_mem_cons.2 ⟨hyes, fun n hn => ?_⟩⟩
  exact hno n (Option.mem_toList.1 hn)

theorem regular_classDef {s : Span} {d : ClassDecl} (h : ∀ m ∈ d.methods, m.body.IsBody ∧ m.body.Regular) :
    (classDef s d).Regular := by
  refine .of_children ⟨List.forall_mem_nil _, fun m hm => (h m hm).1⟩ fun c hc => ?_
  obtain ⟨m, hm, rfl⟩ := List.mem_map.1 hc
  exact (h m hm).2

/-! ### Shapes and bare trees -/

theorem operands_bare (n : Node) : n.bare.operands = n.operands.map bare := by
  cases n with
  | ifElse s c yes no => cases no <;> simp [operands]
  | _ => simp [operands]

theorem methods_bare (n : Node) : n.bare.methods = n.methods.map MethodOf.bare := by
  cases n with
  | classDef s d =>
    rw [bare_classDef]
    rfl
  | ifElse s c yes no => cases no <;> simp [methods]
  | _ => simp [methods]

theorem isTerm_bare {known : ClassId → Prop} {n : Node} : n.bare.IsTerm known ↔ n.IsTerm known := by
  cases n with
  | ifElse s c yes no => cases no <;> simp [IsTerm]
  | _ => simp [IsTerm]

theorem isBody_of_bare {n : Node} (h : n.bare.IsBody) : n.IsBody := by
  obtain ⟨s, body, h⟩ := h
  cases n with
  | methodBody s body => exact ⟨s, body, rfl⟩
  | ifElse s c yes no => cases no <;> simp at h
  | _ => simp at h

theorem Proper.of_bare {n : Node} (h : n.bare.Proper) : n.Proper := by
  refine ⟨fun c hc => ?_, fun m hm => ?_⟩
  · have hbare : c.bare ∈ n.bare.operands := by
      rw [operands_bare]
      exact List.mem_map.2 ⟨c, hc, rfl⟩
    exact (h.operands _ hbare).of_bare fun _ => isTerm_bare.1
  · have hbare : m.bare ∈ n.bare.methods := by
      rw [methods_bare]
      exact List.mem_map.2 ⟨m, hm, rfl⟩
    exact isBody_of_bare (h.bodies _ hbare)

end Node

namespace Grammar

open Node

variable {unit : Nat}

/-- What is spelled as an expression is one, with instances of declared classes only. -/
theorem Spells.terms {known : Set String} {p : Phrase} {w : List TokenKind} (h : Spells unit known p w) :
    match p with
    | .expr _ n => n.All (IsTerm fun cls => cls.unit = unit ∧ cls.name ∈ known)
    | .args ns => ∀ n ∈ ns, n.All (IsTerm fun cls => cls.unit = unit ∧ cls.name ∈ known) := by
  induction h with
  | binary more _ _ _ ihf ihr =>
    refine List.foldlRecOn (motive := All (IsTerm fun cls => cls.unit = unit ∧ cls.name ∈ known)) more _ ihf
      fun l hl p hp => ?_
    rcases p with ⟨op | op, w, n⟩
    · exact .of_children trivial (List.forall_mem_cons.2 ⟨hl, List.forall_mem_singleton.2 (ihr _ hp)⟩)
    · exact .of_children trivial (List.forall_mem_cons.2 ⟨hl, List.forall_mem_singleton.2 (ihr _ hp)⟩)
  | not _ ih => exact .of_children trivial (List.forall_mem_singleton.2 ih)
  | compare op _ _ ihl ihr =>
    exact .of_children trivial (List.forall_mem_cons.2 ⟨ihl, List.forall_mem_singleton.2 ihr⟩)
  | minus _ ih =>
    refine .of_children trivial (List.forall_mem_cons.2 ⟨?_, List.forall_mem_singleton.2 ih⟩)
    exact .of_children trivial (List.forall_mem_nil _)
  | call more _ _ ihf ihr =>
    refine List.foldlRecOn (motive := All (IsTerm fun cls => cls.unit = unit ∧ cls.name ∈ known)) more _ ihf
      fun l hl p hp => ?_
    exact .of_children trivial (List.forall_mem_cons.2 ⟨hl, ihr p hp⟩)
  | literal _ => exact .of_children trivial (List.forall_mem_nil _)
  | paren _ ih => exact ih
  | str _ _ ih => exact .of_children trivial (List.forall_mem_singleton.2 ih)
  | new declared _ ih => exact .of_children ⟨rfl, declared⟩ ih
  | lookup _ => exact .of_children trivial (List.forall_mem_nil _)
  | dottedCall _ _ ih =>
    refine .of_children trivial (List.forall_mem_cons.2 ⟨?_, ih⟩)
    exact .of_children trivial (List.forall_mem_nil _)
  | args items _ ih =>
    intro n hn
    obtain ⟨p, hp, rfl⟩ := List.mem_map.1 hn
    exact ih p hp

theorem Spells.isExpression {known : Set String} {r : Rank} {n : Node} {w : List TokenKind}
    (h : Spells unit known (.expr r n) w) : n.IsExpression :=
  h.terms.mono fun _ hm => hm.mono fun _ _ => trivial

/-- What is written is regular. -/
theorem Writes.regular {a b : ClassNames} {c : Clause} {w : List TokenKind} (h : Writes unit a c w b) :
    match c with
    | .statement n => n.Regular
    | .statements ns | .suite ns => ∀ n ∈ ns, n.Regular
    | .method m => m.body.IsBody ∧ m.body.Regular
    | .methods ms => ∀ m ∈ ms, m.body.IsBody ∧ m.body.Regular := by
  induction h with
  | ret value => exact .of_operands rfl rfl (List.forall_mem_singleton.2 value.isExpression)
  | retNone =>
    refine .of_operands rfl rfl (List.forall_mem_singleton.2 ?_)
    exact .of_children trivial (List.forall_mem_nil _)
  | printCall args =>
    exact .of_operands rfl rfl fun n hn => (args.terms n hn).mono fun _ hm => hm.mono fun _ _ => trivial
  | print items each =>
    refine .of_operands rfl rfl fun n hn => ?_
    obtain ⟨p, hp, rfl⟩ := List.mem_map.1 hn
    exact (each p hp).isExpression
  | assign value => exact .of_operands rfl rfl (List.forall_mem_singleton.2 value.isExpression)
  | setField _ value => exact .of_operands rfl rfl (List.forall_mem_singleton.2 value.isExpression)
  | expr value => exact value.isExpression.regular
  | ifThen cond _ ih => exact regular_ifElse cond.isExpression (regular_block ih) nofun
  | ifElse cond _ _ ih ih' =>
    refine regular_ifElse cond.isExpression (regular_block ih) ?_
    rintro n ⟨⟩
    exact regular_block ih'
  | classDef _ _ _ _ ih => exact regular_classDef ih
  | method _ _ ih => exact ⟨⟨_, _, rfl⟩, regular_methodBody (regular_block ih)⟩
  | suite _ ih => exact ih
  | noStatements => exact List.forall_mem_nil _
  | statements _ _ ih ih' => exact List.forall_mem_cons.2 ⟨ih, ih'⟩
  | noMethods => exact List.forall_mem_nil _
  | methods _ _ ih ih' => exact List.forall_mem_cons.2 ⟨ih, ih'⟩

end Grammar

/-- The tree of a program that has been read is regular. -/
theorem ofTokens_regular {unit : Nat} {tokens : List Token} {root : Node}
    (h : Node.ofTokens unit tokens = .ok root) : root.Regular := by
  obtain ⟨ns, b, hbare, hwrites⟩ := ofTokens_writes h
  have hblock : root.bare.Regular := by
    rw [hbare]
    exact Node.regular_block hwrites.regular
  exact Node.All.of_bare hblock fun _ => Node.Proper.of_bare

end ClassScript

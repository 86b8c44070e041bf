import ClassScript.Proofs.TreeShape
import Mathlib.Data.List.Forall2

/-!
# Where the nodes of a program stand

In the tree of a program that has been read each form of node has its places: blocks are the branches of
conditionals and what the bodies of methods consist of, the bodies of methods stand in classes only, and
statements are lines of blocks.  A name that is looked up stands in the text as it is looked up, and each
method has the parameters that its header is written with.  Main statement: `ofTokens_shape`.
-/

namespace ClassScript

open Grammar

namespace Node

/-- What kind of construct a node is. -/
inductive Form where
  | expression | statement | block | body
  deriving DecidableEq, Repr

/-- The form of a node. -/
def form : Node → Form
  | literal _ _ | lookup _ _ | call _ _ _ _ | stringify _ _ | arith _ _ _ _ | logic _ _ _ _ | not _ _
  | compare _ _ _ _ | new _ _ _ => .expression
  | assign _ _ _ | print _ _ | ret _ _ | classDef _ _ | setField _ _ _ _ | ifElse _ _ _ _ => .statement
  | block _ _ => .block
  | methodBody _ _ => .body

/-- Where a node may stand directly below another one. -/
inductive Place where
  /-- An operand, an argument or a condition, or the value that is assigned or returned. -/
  | operand
  /-- An element of a block. -/
  | line
  /-- A branch of a conditional. -/
  | branch
  /-- The body of a method of a class. -/
  | ofMethod
  /-- What the body of a method consists of. -/
  | inside
  deriving DecidableEq, Repr

/-- The places of a form. -/
def Form.places : Form → List Place
  | expression => [.operand, .line]
  | statement => [.line]
  | block => [.branch, .inside]
  | body => [.ofMethod]

/-- The nodes directly below a node, and where they stand. -/
def placed (n : Node) : List (Place × Node) :=
  n.operands.map (.operand, ·) ++
    match n with
    | block _ body => body.map (.line, ·)
    | ifElse _ _ yes no => (yes :: no.toList).map (.branch, ·)
    | classDef _ d => d.methods.map fun m => (.ofMethod, m.body)
    | methodBody _ body => [(.inside, body)]
    | _ => []

/-- All nodes directly below a node have a place there. -/
theorem map_snd_placed (n : Node) : n.placed.map Prod.snd = n.children := by
  cases n <;> simp [placed, operands, children, Function.comp_def]

/-- The dotted name that a node looks up: its own, or that of the object whose field it sets. -/
def path? : Node → Option (List String)
  | lookup _ path => some path
  | setField _ object _ _ => some object
  | _ => none

/-- The dotted name of a node is not empty and stands in a text. -/
def Named (text : List TokenKind) (n : Node) : Prop := ∀ path ∈ n.path?, path ≠ [] ∧ pathText path <:+: text

/-- The nodes directly below a node are at their places, its dotted name stands in the text, and a class has
methods. -/
structure Shaped (text : List TokenKind) (n : Node) : Prop where
  placed : ∀ p ∈ n.placed, p.1 ∈ p.2.form.places
  named : n.Named text
  methods : ∀ d ∈ n.defines, d.methods ≠ []

/-- A tree that may stand at a place, shaped in all its nodes. -/
structure Stands (text : List TokenKind) (place : Place) (n : Node) : Prop where
  form : place ∈ n.form.places
  shaped : n.All (Shaped text)

section

variable {text text' : List TokenKind} {n : Node}

theorem Named.mono (h : n.Named text) (hpart : text <:+: text') : n.Named text' := fun path hp =>
  ⟨(h path hp).1, (h path hp).2.trans hpart⟩

theorem Shaped.mono (h : n.Shaped text) (hpart : text <:+: text') : n.Shaped text' :=
  ⟨h.placed, h.named.mono hpart, h.methods⟩

theorem Stands.mono {place : Place} (h : n.Stands text place) (hpart : text <:+: text') :
    n.Stands text' place :=
  ⟨h.form, h.shaped.mono fun _ hm => hm.mono hpart⟩

/-- A tree is shaped if the trees below its root are at their places. -/
theorem shaped_of_placed (h : ∀ p ∈ n.placed, p.2.Stands text p.1) (hnamed : n.Named text)
    (hmethods : ∀ d ∈ n.defines, d.methods ≠ []) : n.All (Shaped text) := by
  refine .of_children ⟨fun p hp => (h p hp).form, hnamed, hmethods⟩ fun c hc => ?_
  rw [← map_snd_placed] at hc
  obtain ⟨p, hp, rfl⟩ := List.mem_map.1 hc
  exact (h p hp).shaped

theorem IsTerm.form_eq {known : ClassId → Prop} (h : n.IsTerm known) : n.form = .expression := by
  cases n <;> first | rfl | cases h

theorem IsTerm.placed_eq {known : ClassId → Prop} (h : n.IsTerm known) :
    n.placed = n.operands.map (.operand, ·) := by
  cases n <;> first | exact List.append_nil _ | cases h

theorem IsTerm.defines_eq {known : ClassId → Prop} (h : n.IsTerm known) : n.defines = [] := by
  cases n <;> first | rfl | cases h

/-- An expression whose names stand in a text is shaped. -/
theorem IsExpression.shaped (h : n.IsExpression) (hnamed : n.All (Named text)) : n.All (Shaped text) := by
  intro m hm
  have hterm := h m hm
  refine ⟨fun p hp => ?_, hnamed m hm, ?_⟩
  · rw [hterm.placed_eq] at hp
    obtain ⟨c, hc, rfl⟩ := List.mem_map.1 hp
    have hchild : c.IsExpression := (h.has hm).child (hterm.children_eq ▸ hc)
    rw [hchild.self.form_eq]
    exact List.mem_cons_self
  · rw [hterm.defines_eq]
    exact List.forall_mem_nil _

end

/-! ### Methods -/

/-- The methods of all classes of a tree in the order of their headers. -/
def allMethods (n : Node) : List Method :=
  match n with
  | classDef _ d => d.methods.attach.flatMap fun ⟨m, _⟩ => m :: allMethods m.body
  | n => n.children.attach.flatMap fun ⟨c, _⟩ => allMethods c
termination_by n
decreasing_by
  · exact sizeOf_lt_of_mem_children (List.mem_map_of_mem ‹_›)
  · exact sizeOf_lt_of_mem_children ‹_›

theorem allMethods_classDef (s : Span) (d : ClassDecl) :
    (classDef s d).allMethods = d.methods.flatMap fun m => m :: m.body.allMethods := by
  rw [allMethods]
  simp

theorem allMethods_eq {n : Node} (h : n.defines = []) : n.allMethods = n.children.flatMap allMethods := by
  unfold allMethods
  split
  · cases h
  · simp

theorem allMethods_block (s : Span) (body : List Node) :
    (block s body).allMethods = body.flatMap allMethods := allMethods_eq rfl

theorem allMethods_methodBody (s : Span) (body : Node) : (methodBody s body).allMethods = body.allMethods := by
  rw [allMethods_eq rfl, children, List.flatMap_singleton]

theorem allMethods_ifElse (s : Span) (cond yes : Node) (no : Option Node) :
    (ifElse s cond yes no).allMethods =
      cond.allMethods ++ (yes.allMethods ++ no.toList.flatMap allMethods) := allMethods_eq rfl

/-! ### Bare trees -/

theorem form_bare (n : Node) : n.bare.form = n.form := by
  cases n with
  | ifElse s c yes no => cases no <;> simp [form]
  | _ => simp [form]

theorem path?_bare (n : Node) : n.bare.path? = n.path? := by
  cases n with
  | ifElse s c yes no => cases no <;> simp [path?]
  | _ => simp [path?]

theorem placed_bare (n : Node) : n.bare.placed = n.placed.map fun p => (p.1, p.2.bare) := by
  cases n with
  | ifElse s c yes no => cases no <;> simp [placed, operands]
  | _ => simp [placed, operands, Function.comp_def]

theorem Shaped.of_bare {text : List TokenKind} {n : Node} (h : n.bare.Shaped text) : n.Shaped text := by
  refine ⟨fun p hp => ?_, fun path hp => ?_, fun d hd => ?_⟩
  · have hbare : (p.1, p.2.bare) ∈ n.bare.placed := by
      rw [placed_bare]
      exact List.mem_map.2 ⟨p, hp, rfl⟩
    have := h.placed _ hbare
    rwa [form_bare] at this
  · rw [← path?_bare] at hp
    exact h.named path hp
  · have hbare : d.bare ∈ n.bare.defines := by
      rw [defines_bare]
      exact List.mem_map_of_mem hd
    exact fun hnil => h.methods _ hbare (List.map_eq_nil_iff.2 hnil)

theorem allMethods_bare (n : Node) : n.bare.allMethods = n.allMethods.map MethodOf.bare := by
  induction n using Node.induction with
  | step n ih =>
    by_cases hd : n.defines = []
    · have hbare : n.bare.defines = [] := by rw [defines_bare, hd, List.map_nil]
      rw [allMethods_eq hbare, allMethods_eq hd, children_bare, List.map_flatMap, List.flatMap_map]
      exact List.flatMap_congr ih
    · cases n with
      | classDef s d =>
        rw [bare_classDef, allMethods_classDef, allMethods_classDef, List.map_flatMap, List.flatMap_map]
        refine List.flatMap_congr fun m hm => ?_
        exact congrArg (m.bare :: ·) (ih m.body (List.mem_map_of_mem hm))
      | _ => exact absurd rfl hd

end Node

/-! ### Texts -/

namespace Grammar

open Node

variable {unit : Nat}

theorem infix_commas {w : List TokenKind} {ws : List (List TokenKind)} (h : w ∈ ws) : w <:+: commas ws := by
  induction ws with
  | nil => cases h
  | cons v ws ih =>
    by_cases hne : ws = []
    · subst hne
      obtain rfl : w = commas [v] := (List.mem_singleton.1 h).trans (commas_singleton v).symm
      exact List.infix_rfl
    · rw [commas_cons hne]
      rcases List.mem_cons.1 h with rfl | h
      · exact (List.prefix_append _ _).isInfix
      · exact (ih h).trans ((List.suffix_cons _ _).trans (List.suffix_append _ _)).isInfix

theorem infix_parens (w : List TokenKind) : w <:+: parens w := List.infix_append [_] w [_]

theorem infix_flatMap {α : Type} {x : α} {xs : List α} (h : x ∈ xs) (f : α → List TokenKind) :
    f x <:+: xs.flatMap f :=
  List.infix_of_mem_flatten (List.mem_map_of_mem h)

/-- The names that are looked up in an expression stand in its text. -/
theorem Spells.named {known : Set String} {p : Phrase} {w : List TokenKind} (h : Spells unit known p w) :
    match p with
    | .expr _ n => n.All (Named w)
    | .args ns => ∀ n ∈ ns, n.All (Named w) := by
  have grow {u w : List TokenKind} {n : Node} (hn : n.All (Named u)) (hpart : u <:+: w) : n.All (Named w) :=
    hn.mono fun _ hm => hm.mono hpart
  induction h with
  | @binary r n w more _ _ _ ihf ihr =>
    refine List.foldlRecOn (motive := All (Named (w ++ more.flatMap fun p => p.1.token :: p.2.1))) more _
      (grow ihf (List.prefix_append _ _).isInfix) fun l hl p hp => ?_
    have hright := grow (ihr p hp) ((List.suffix_cons p.1.token _).isInfix.trans
      ((infix_flatMap hp fun p => p.1.token :: p.2.1).trans (List.suffix_append w _).isInfix))
    rcases p with ⟨op | op, v, m⟩
    · exact .of_children nofun (List.forall_mem_cons.2 ⟨hl, List.forall_mem_singleton.2 hright⟩)
    · exact .of_children nofun (List.forall_mem_cons.2 ⟨hl, List.forall_mem_singleton.2 hright⟩)
  | not _ ih => exact .of_children nofun (List.forall_mem_singleton.2 (grow ih (List.suffix_cons _ _).isInfix))
  | @compare l r u v op _ _ ihl ihr =>
    have hright := grow ihr ((List.suffix_cons (comparatorToken op) v).trans (List.suffix_append u _)).isInfix
    exact .of_children nofun (List.forall_mem_cons.2
      ⟨grow ihl (List.prefix_append _ _).isInfix, List.forall_mem_singleton.2 hright⟩)
  | minus _ ih =>
    refine .of_children nofun (List.forall_mem_cons.2 ⟨.of_children nofun (List.forall_mem_nil _), ?_⟩)
    exact List.forall_mem_singleton.2 (grow ih (List.suffix_cons _ _).isInfix)
  | @call n w more _ _ ihf ihr =>
    refine List.foldlRecOn
      (motive := All (Named (w ++ more.flatMap fun p => .char '.' :: .name p.1 :: p.2.1))) more _
      (grow ihf (List.prefix_append _ _).isInfix) fun l hl p hp => ?_
    have hpart : p.2.1 <:+: w ++ more.flatMap fun p => .char '.' :: .name p.1 :: p.2.1 :=
      (List.suffix_append [_, _] p.2.1).isInfix.trans
        ((infix_flatMap hp fun p => .char '.' :: .name p.1 :: p.2.1).trans (List.suffix_append w _).isInfix)
    exact .of_children nofun (List.forall_mem_cons.2 ⟨hl, fun m hm => grow (ihr p hp m hm) hpart⟩)
  | literal _ => exact .of_children nofun (List.forall_mem_nil _)
  | paren _ ih => exact grow ih (infix_parens _)
  | str _ _ ih =>
    refine .of_children nofun (List.forall_mem_singleton.2 (grow ih ?_))
    exact (infix_parens _).trans (List.suffix_cons _ _).isInfix
  | new _ _ ih => exact .of_children nofun fun n hn => grow (ih n hn) (List.suffix_cons _ _).isInfix
  | lookup h =>
    refine .of_children (fun path hp => ?_) (List.forall_mem_nil _)
    cases hp
    exact ⟨h, List.infix_rfl⟩
  | @dottedCall path m ns w h _ ih =>
    refine .of_children nofun (List.forall_mem_cons.2 ⟨.of_children (fun p hp => ?_) (List.forall_mem_nil _), ?_⟩)
    · cases hp
      rw [Parser.pathText_concat h, List.append_assoc]
      exact ⟨h, (List.prefix_append _ _).isInfix⟩
    · exact fun n hn => grow (ih n hn) (List.suffix_append _ _).isInfix
  | args items _ ih =>
    intro n hn
    obtain ⟨p, hp, rfl⟩ := List.mem_map.1 hn
    exact grow (ih p hp) ((infix_commas (List.mem_map_of_mem hp)).trans (infix_parens _))

/-- An expression may stand wherever one is needed. -/
theorem Spells.stands {known : Set String} {r : Rank} {n : Node} {w text : List TokenKind}
    (h : Spells unit known (.expr r n) w) (hpart : w <:+: text) : n.Stands text .operand := by
  refine ⟨?_, h.isExpression.shaped (h.named.mono fun _ hm => hm.mono hpart)⟩
  rw [h.isExpression.self.form_eq]
  exact List.mem_cons_self

/-- Arguments may stand wherever they are needed. -/
theorem Spells.args_stand {known : Set String} {ns : List Node} {w text : List TokenKind}
    (h : Spells unit known (.args ns) w) (hpart : w <:+: text) : ∀ n ∈ ns, n.Stands text .operand := by
  cases h with
  | args items each =>
    intro n hn
    obtain ⟨p, hp, rfl⟩ := List.mem_map.1 hn
    exact (each p hp).stands ((infix_commas (List.mem_map_of_mem hp)).trans ((infix_parens _).trans hpart))

end Grammar

namespace Node

variable {text : List TokenKind}

theorem Stands.line {n : Node} (h : n.Stands text .operand) : n.Stands text .line := by
  refine ⟨?_, h.shaped⟩
  have hform := h.form
  revert hform
  cases n.form <;> decide

/-- A statement may stand in a block if its operands are expressions and nothing else is below it. -/
theorem stands_of_operands {n : Node} (hform : n.form = .statement) (hplaced : n.placed = n.operands.map (.operand, ·))
    (h : ∀ c ∈ n.operands, c.Stands text .operand) (hnamed : n.Named text)
    (hdefines : n.defines = []) : n.Stands text .line := by
  refine ⟨by rw [hform]; exact List.mem_cons_self, shaped_of_placed ?_ hnamed ?_⟩
  · rw [hplaced]
    exact List.forall_mem_map.2 h
  · rw [hdefines]
    exact List.forall_mem_nil _

theorem stands_block {s : Span} {body : List Node} {place : Place} (hplace : place ∈ Form.block.places)
    (h : ∀ n ∈ body, n.Stands text .line) : (block s body).Stands text place :=
  ⟨hplace, shaped_of_placed (List.forall_mem_map.2 h) nofun nofun⟩

theorem stands_ifElse {s s' : Span} {cond : Node} {yes : List Node} {no : Option Node}
    (hcond : cond.Stands text .operand) (hyes : ∀ n ∈ yes, n.Stands text .line)
    (hno : ∀ n ∈ no, n.Stands text .branch) : (ifElse s cond (block s' yes) no).Stands text .line := by
  refine ⟨List.mem_cons_self, shaped_of_placed ?_ nofun nofun⟩
  refine List.forall_mem_cons.2 ⟨hcond, List.forall_mem_cons.2 ⟨stands_block List.mem_cons_self hyes, ?_⟩⟩
  exact List.forall_mem_map.2 fun n hn => hno n (Option.mem_toList.1 hn)

end Node

/-- What is written is shaped, and stands where it may. -/
theorem Grammar.Writes.stands {unit : Nat} {a b : ClassNames} {c : Clause} {w : List TokenKind}
    (h : Writes unit a c w b) :
    match c with
    | .statement n => n.Stands w .line
    | .statements ns | .suite ns => ∀ n ∈ ns, n.Stands w .line
    | .method m => m.body.Stands w .ofMethod
    | .methods ms => ∀ m ∈ ms, m.body.Stands w .ofMethod := by
  induction h with
  | @ret a n w value =>
    have hpart : w <:+: .keyword .kReturn :: w ++ [.newline] := List.infix_append [_] w [_]
    exact Node.stands_of_operands rfl (List.append_nil _) (List.forall_mem_singleton.2 (value.stands hpart)) nofun rfl
  | retNone =>
    refine Node.stands_of_operands rfl (List.append_nil _) (List.forall_mem_singleton.2 ?_) nofun rfl
    exact ⟨List.mem_cons_self, Node.shaped_of_placed nofun nofun nofun⟩
  | @printCall a ns w args =>
    have hpart : w <:+: .keyword .kPrint :: w ++ [.newline] := List.infix_append [_] w [_]
    exact Node.stands_of_operands rfl (List.append_nil _) (args.args_stand hpart) nofun rfl
  | print items each =>
    refine Node.stands_of_operands rfl (List.append_nil _) (fun n hn => ?_) nofun rfl
    obtain ⟨p, hp, rfl⟩ := List.mem_map.1 hn
    exact (each p hp).stands ((infix_commas (List.mem_map_of_mem hp)).trans (List.infix_append [_] _ [_]))
  | @assign a x n w value =>
    have hpart : w <:+: pathText [x] ++ .char '=' :: w ++ [.newline] :=
      List.infix_append (pathText [x] ++ [.char '=']) w [_]
    exact Node.stands_of_operands rfl (List.append_nil _) (List.forall_mem_singleton.2 (value.stands hpart)) nofun rfl
  | @setField a path f n w h value =>
    have hpart : w <:+: pathText (path ++ [f]) ++ .char '=' :: w ++ [.newline] := by
      have := List.infix_append (pathText (path ++ [f]) ++ [.char '=']) w [.newline]
      rwa [List.append_assoc (pathText _)] at this
    refine Node.stands_of_operands rfl (List.append_nil _) (List.forall_mem_singleton.2 (value.stands hpart))
      (fun p hp => ?_) rfl
    cases hp
    rw [Parser.pathText_concat h, List.append_assoc, List.append_assoc]
    exact ⟨h, (List.prefix_append _ _).isInfix⟩
  | expr value => exact (value.stands (List.prefix_append _ _).isInfix).line
  | @ifThen a b c yes u v cond _ ih =>
    have hcond := cond.stands (List.infix_append [.keyword .kIf] u (.char ':' :: v))
    have hsuite : v <:+: .keyword .kIf :: u ++ .char ':' :: v :=
      ((List.suffix_cons _ v).trans (List.suffix_append _ _)).isInfix
    exact Node.stands_ifElse hcond (fun n hn => (ih n hn).mono hsuite) nofun
  | @ifElse a b d c yes no u v w cond _ _ ih ih' =>
    let front := .keyword .kIf :: u ++ .char ':' :: v
    have hfront : front <:+: front ++ .keyword .kElse :: .char ':' :: w := (List.prefix_append _ _).isInfix
    have hif : u <:+: front := List.infix_append [_] u _
    have hcond := cond.stands (hif.trans hfront)
    have hyes : v <:+: front ++ .keyword .kElse :: .char ':' :: w :=
      ((List.suffix_cons _ v).trans (List.suffix_append _ _)).isInfix.trans hfront
    have hno : w <:+: front ++ .keyword .kElse :: .char ':' :: w :=
      ((List.suffix_append [_, _] w).trans (List.suffix_append _ _)).isInfix
    refine Node.stands_ifElse hcond (fun n hn => (ih n hn).mono hyes) ?_
    rintro n ⟨⟩
    exact Node.stands_block List.mem_cons_self fun n hn => (ih' n hn).mono hno
  | @classDef a b c parent ms w _ _ _ nonempty ih =>
    refine ⟨List.mem_cons_self, Node.shaped_of_placed (List.forall_mem_map.2 fun m hm => ?_) nofun ?_⟩
    · exact (ih m hm).mono (((List.suffix_append [_, _, _] w).trans (List.suffix_append _ _)).isInfix.trans
        (List.prefix_append _ _).isInfix)
    · exact List.forall_mem_singleton.2 nonempty
  | @method a b m written params body w _ _ ih =>
    refine ⟨List.mem_cons_self, Node.shaped_of_placed (List.forall_mem_singleton.2 ?_) nofun nofun⟩
    refine Node.Stands.mono (Node.stands_block (List.mem_cons_of_mem _ List.mem_cons_self) ih) ?_
    exact ((List.suffix_cons _ w).trans (List.suffix_append _ _)).isInfix
  | @suite a b ns w _ ih => exact fun n hn => (ih n hn).mono (List.infix_append [_, _] w [_])
  | noStatements => exact List.forall_mem_nil _
  | statements _ _ ih ih' =>
    exact List.forall_mem_cons.2 ⟨ih.mono (List.prefix_append _ _).isInfix,
      fun n hn => (ih' n hn).mono (List.suffix_append _ _).isInfix⟩
  | noMethods => exact List.forall_mem_nil _
  | methods _ _ ih ih' =>
    exact List.forall_mem_cons.2 ⟨ih.mono (List.prefix_append _ _).isInfix,
      fun n hn => (ih' n hn).mono (List.suffix_append _ _).isInfix⟩

/-! ### Headers -/

/-- The names between commas at the front of a text. -/
def parameterNames : List TokenKind → List String
  | .name x :: .char ',' :: ks => x :: parameterNames ks
  | .name x :: _ => [x]
  | _ => []

/-- The headers of methods in a text: for each the name and the names in parentheses. -/
def headers : List TokenKind → List (String × List String)
  | .keyword .kDef :: .name m :: .char '(' :: ks => (m, parameterNames ks) :: headers ks
  | _ :: ks => headers ks
  | [] => []

/-- The method that a header is written for has its name, and its names but for the receiver. -/
def Heads (header : String × List String) (m : Method) : Prop :=
  m.name = header.1 ∧ Grammar.Parameters header.2 m.params

theorem parameterNames_commas (xs : List String) (v : List TokenKind) :
    parameterNames (commas (xs.map fun x => [.name x]) ++ .char ')' :: v) = xs := by
  induction xs with
  | nil => rfl
  | cons x xs ih =>
    by_cases hne : xs = []
    · subst hne
      rfl
    · rw [List.map_cons, commas_cons (by simpa using hne), List.append_assoc, List.singleton_append,
        List.cons_append, parameterNames, ih]

theorem headers_cons {k : TokenKind} (h : k ≠ .keyword .kDef) (ks : List TokenKind) :
    headers (k :: ks) = headers ks := by
  rw [headers]
  rintro m v rfl
  exact absurd rfl h

theorem headers_append {w : List TokenKind} (h : .keyword .kDef ∉ w) (v : List TokenKind) :
    headers (w ++ v) = headers v := by
  induction w with
  | nil => rfl
  | cons k w ih =>
    obtain ⟨hk, hw⟩ := List.ne_and_not_mem_of_not_mem_cons h
    rw [List.cons_append, headers_cons (Ne.symm hk), ih hw]

/-- The headers in a text are those of the methods, whatever stands behind the text. -/
def Introduces (w : List TokenKind) (ms : List Method) : Prop :=
  ∃ hs, List.Forall₂ Heads hs ms ∧ ∀ v, headers (w ++ v) = hs ++ headers v

namespace Introduces

variable {u w : List TokenKind} {ms ns : List Method}

theorem of_not_mem (h : .keyword .kDef ∉ w) : Introduces w [] := ⟨[], .nil, headers_append h⟩

theorem append (hu : Introduces u ms) (hw : Introduces w ns) : Introduces (u ++ w) (ms ++ ns) := by
  obtain ⟨hs, hms, hheaders⟩ := hu
  obtain ⟨hs', hns, hheaders'⟩ := hw
  refine ⟨hs ++ hs', List.rel_append hms hns, fun v => ?_⟩
  rw [List.append_assoc, hheaders, hheaders', List.append_assoc]

theorem cons {k : TokenKind} (h : k ≠ .keyword .kDef) (hw : Introduces w ms) : Introduces (k :: w) ms := by
  obtain ⟨hs, hms, hheaders⟩ := hw
  refine ⟨hs, hms, fun v => ?_⟩
  rw [List.cons_append, headers_cons h, hheaders]

theorem prepend (hu : .keyword .kDef ∉ u) (hw : Introduces w ms) : Introduces (u ++ w) ms :=
  (of_not_mem hu).append hw

theorem concat {k : TokenKind} (h : k ≠ .keyword .kDef) (hw : Introduces w ms) : Introduces (w ++ [k]) ms := by
  have := hw.append (of_not_mem (mt List.mem_singleton.1 h.symm))
  rwa [List.append_nil] at this

end Introduces

theorem Node.IsExpression.allMethods_eq {n : Node} (h : n.IsExpression) : n.allMethods = [] := by
  induction n using Node.induction with
  | step n ih =>
    rw [Node.allMethods_eq h.self.defines_eq, List.flatMap_eq_nil_iff]
    exact fun c hc => ih c hc (h.child hc)

/-- A text without headers may be that of a node with nothing but expressions below it. -/
theorem introduces_of_expressions {n : Node} {w : List TokenKind} (hdefines : n.defines = [])
    (h : ∀ c ∈ n.children, c.IsExpression) (hw : .keyword .kDef ∉ w) : Introduces w n.allMethods := by
  have hnil : n.allMethods = [] := by
    rw [Node.allMethods_eq hdefines, List.flatMap_eq_nil_iff]
    exact fun c hc => (h c hc).allMethods_eq
  rw [hnil]
  exact .of_not_mem hw

namespace Grammar

/-- The methods of what a text is written for, in the order of the text. -/
def Clause.allMethods : Clause → List Method
  | .statement n => n.allMethods
  | .statements ns | .suite ns => ns.flatMap Node.allMethods
  | .method m => m :: m.body.allMethods
  | .methods ms => ms.flatMap fun m => m :: m.body.allMethods

theorem Spells.no_header {unit : Nat} {known : Set String} {p : Phrase} {w : List TokenKind}
    (h : Spells unit known p w) : .keyword .kDef ∉ w :=
  h.foreign_not_mem (by decide)

/-- The headers in a text that is written are those of its methods. -/
theorem Writes.introduces {unit : Nat} {a b : ClassNames} {c : Clause} {w : List TokenKind}
    (h : Writes unit a c w b) : Introduces w c.allMethods := by
  induction h with
  | @ret a n w value =>
    show Introduces _ (Node.ret {} n).allMethods
    exact introduces_of_expressions rfl (List.forall_mem_singleton.2 value.isExpression) (by simp [value.no_header])
  | retNone =>
    show Introduces _ (Node.ret {} (.literal {} .none)).allMethods
    refine introduces_of_expressions rfl (List.forall_mem_singleton.2 ?_) (by decide)
    exact .of_children trivial (List.forall_mem_nil _)
  | @printCall a ns w args =>
    show Introduces _ (Node.print {} ns).allMethods
    refine introduces_of_expressions rfl (fun n hn => ?_) (by simp [args.no_header])
    exact (args.terms n hn).mono fun _ hm => hm.mono fun _ _ => trivial
  | print items each =>
    have hargs : .keyword .kDef ∉ commas (items.map Prod.fst) := by
      refine not_mem_commas (by decide) fun w hw => ?_
      obtain ⟨p, hp, rfl⟩ := List.mem_map.1 hw
      exact (each p hp).no_header
    show Introduces _ (Node.print {} (items.map Prod.snd)).allMethods
    refine introduces_of_expressions rfl (fun n hn => ?_) (by simp [hargs])
    obtain ⟨p, hp, rfl⟩ := List.mem_map.1 hn
    exact (each p hp).isExpression
  | @assign a x n w value =>
    show Introduces _ (Node.assign {} x n).allMethods
    refine introduces_of_expressions rfl (List.forall_mem_singleton.2 value.isExpression) ?_
    simp [value.no_header, foreign_not_mem_pathText (k := .keyword .kDef) (by decide)]
  | @setField a path f n w _ value =>
    show Introduces _ (Node.setField {} path f n).allMethods
    refine introduces_of_expressions rfl (List.forall_mem_singleton.2 value.isExpression) ?_
    simp [value.no_header, foreign_not_mem_pathText (k := .keyword .kDef) (by decide)]
  | @expr a n w value =>
    show Introduces _ n.allMethods
    have hexpr := value.isExpression
    exact introduces_of_expressions hexpr.self.defines_eq (fun c hc => hexpr.child hc) (by simp [value.no_header])
  | @ifThen a b c yes u v cond _ ih =>
    show Introduces _ (Node.ifElse {} c (.block {} yes) none).allMethods
    rw [Node.allMethods_ifElse, cond.isExpression.allMethods_eq, Node.allMethods_block]
    have hsuite : Introduces v (yes.flatMap Node.allMethods ++ []) := by
      rw [List.append_nil]
      exact ih
    exact .prepend (by simp [cond.no_header]) (hsuite.cons (by decide))
  | @ifElse a b d c yes no u v w cond _ _ ih ih' =>
    show Introduces _ (Node.ifElse {} c (.block {} yes) (some (.block {} no))).allMethods
    rw [Node.allMethods_ifElse, cond.isExpression.allMethods_eq, Node.allMethods_block, Option.toList_some,
      List.flatMap_singleton, Node.allMethods_block]
    have hfirst : Introduces (.keyword .kIf :: u ++ .char ':' :: v) (yes.flatMap Node.allMethods) :=
      .prepend (by simp [cond.no_header]) (ih.cons (by decide))
    exact hfirst.append ((ih'.cons (by decide)).cons (by decide))
  | @classDef a b c parent ms w fresh known _ _ ih =>
    show Introduces _ (Node.classDef {} ⟨⟨unit, c⟩, parent.map (ClassId.mk unit), ms⟩).allMethods
    rw [Node.allMethods_classDef]
    have hbody : Introduces (.char ':' :: .newline :: .indent :: w) _ :=
      ((ih.cons (by decide)).cons (by decide)).cons (by decide)
    refine .concat (by decide) (.prepend ?_ hbody)
    cases parent <;> simp [parens]
  | @method a b m written params body w hparams _ ih =>
    obtain ⟨hs, hms, hheaders⟩ := ih
    refine ⟨(m, written) :: hs, .cons ⟨rfl, hparams⟩ ?_, fun v => ?_⟩
    · rwa [Node.allMethods_methodBody, Node.allMethods_block]
    · -- the names between the parentheses hold no header, so those behind the header are those of the body
      have hnames : .keyword .kDef ∉ commas (written.map fun x => [.name x]) := by
        refine not_mem_commas (by decide) fun w hw => ?_
        obtain ⟨x, -, rfl⟩ := List.mem_map.1 hw
        simp
      simp only [parens, List.cons_append, List.append_assoc, List.nil_append, headers, parameterNames_commas]
      rw [headers_append hnames, headers_cons (by decide), headers_cons (by decide), hheaders]
  | suite _ ih => exact ((ih.cons (by decide)).cons (by decide)).concat (by decide)
  | noStatements => exact .of_not_mem List.not_mem_nil
  | statements _ _ ih ih' => exact ih.append ih'
  | noMethods => exact .of_not_mem List.not_mem_nil
  | methods _ _ ih ih' => exact ih.append ih'

end Grammar

/-- The tree of a program that has been read is a block, all nodes below it are at the places of their forms, the
names that it looks up stand in the tokens up to the first end mark, and its methods are those whose headers
stand there. -/
theorem ofTokens_shape {unit : Nat} {tokens : List Token} {root : Node} (h : Node.ofTokens unit tokens = .ok root) :
    root.form = .block ∧ root.All (Node.Shaped (Reading.ofTokens unit tokens).kinds) ∧
      List.Forall₂ Heads (headers (Reading.ofTokens unit tokens).kinds) root.allMethods := by
  obtain ⟨ns, b, hbare, hwrites⟩ := ofTokens_writes h
  have hblock : root.bare.Stands (Reading.ofTokens unit tokens).kinds .branch := by
    rw [hbare]
    exact Node.stands_block List.mem_cons_self hwrites.stands
  refine ⟨?_, hblock.shaped.of_bare fun _ => Node.Shaped.of_bare, ?_⟩
  · rw [← Node.form_bare, hbare]
    rfl
  · obtain ⟨hs, hms, hheaders⟩ := hwrites.introduces
    have heq : headers (Reading.ofTokens unit tokens).kinds = hs := by simpa [headers] using hheaders []
    have hmethods : root.allMethods.map MethodOf.bare = ns.flatMap Node.allMethods := by
      rw [← Node.allMethods_bare, hbare, Node.allMethods_block]
    have hms : List.Forall₂ Heads hs (root.allMethods.map MethodOf.bare) := by
      rw [hmethods]
      exact hms
    have hheads : List.Forall₂ (fun header m => Heads header m.bare) hs root.allMethods :=
      List.forall₂_map_right_iff.1 hms
    rw [heq]
    exact hheads

/-- A class with one list of parameters in both its forms, and a field of a dotted object. -/
theorem ofTokens_shape_class :
    let kinds : List TokenKind := [.keyword .kClass, .name "A", .char ':', .newline, .indent,
      .keyword .kDef, .name "f", .char '(', .name "self", .char ',', .name "x", .char ')', .char ':', .newline,
      .indent, .name "self", .char '.', .name "a", .char '.', .name "b", .char '=', .name "x", .newline, .dedent,
      .keyword .kDef, .name "g", .char '(', .name "x", .char ')', .char ':', .newline,
      .indent, .keyword .kIf, .name "x", .char ':', .newline, .indent, .keyword .kReturn, .newline, .dedent, .dedent,
      .dedent]
    let tokens : List Token := (kinds ++ [TokenKind.eof]).map fun k => ⟨k, {}⟩
    ∃ root, Node.ofTokens 0 tokens = .ok root ∧ root.All (Node.Shaped kinds) ∧
      List.Forall₂ Heads [("f", ["self", "x"]), ("g", ["x"])] root.allMethods := by
  intro kinds tokens
  have hread : (Node.ofTokens 0 tokens).isOk = true := by decide +kernel
  cases hroot : Node.ofTokens 0 tokens with
  | error e =>
    rw [hroot] at hread
    cases hread
  | ok root =>
    obtain ⟨-, hshaped, hmethods⟩ := ofTokens_shape hroot
    exact ⟨root, rfl, hshaped, hmethods⟩

end ClassScript

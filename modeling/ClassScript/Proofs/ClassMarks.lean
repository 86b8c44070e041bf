import ClassScript.Proofs.TreeShape
import ClassScript.Syntax.Classes
import Mathlib.Data.List.Perm.Basic

/-!
# Classes in the order of a text

On the way through a tree in the order of its text one comes to the headers and the ends of its classes
and to the nodes that make instances: these are its marks.  The rules of the grammar for class names are
rules for the marks alone (`Grammar.Writes.run`).  Main statement: in a program that has been read every
class has a name of its own and stands behind the end of its parent, and instances are made of its classes
only (`ofTokens_run`, `Mark.Run.classesClosed`).
-/

namespace ClassScript

/-- What one comes to on the way through a tree. -/
inductive Mark where
  /-- The header of a class. -/
  | opened (c : ClassId) (parent : Option ClassId)
  /-- The end of a class. -/
  | closed (c : ClassId)
  /-- A node that makes an instance. -/
  | used (c : ClassId)
  deriving DecidableEq, Repr

namespace Mark

/-- The class of a header. -/
def opens? : Mark → Option ClassId
  | opened c _ => some c
  | _ => none

/-- The class of an end. -/
def closes? : Mark → Option ClassId
  | closed c => some c
  | _ => none

end Mark

namespace Node

/-- The marks of a node before those of the nodes below. -/
def opening : Node → List Mark
  | classDef _ d => [.opened d.id d.parent]
  | new _ cls _ => [.used cls]
  | _ => []

/-- The marks of a node behind those of the nodes below. -/
def closing : Node → List Mark
  | classDef _ d => [.closed d.id]
  | _ => []

/-- The marks of a tree in the order of its text. -/
def marks (n : Node) : List Mark :=
  n.opening ++ (n.children.attach.flatMap fun ⟨c, _⟩ => marks c) ++ n.closing
termination_by n
decreasing_by exact sizeOf_lt_of_mem_children ‹_›

theorem marks_eq (n : Node) : n.marks = n.opening ++ n.children.flatMap marks ++ n.closing := by
  rw [marks]
  congr 2
  simp

theorem marks_block (s : Span) (body : List Node) : (block s body).marks = body.flatMap marks := by
  rw [marks_eq]
  simp [opening, closing, children]

theorem marks_methodBody (s : Span) (body : Node) : (methodBody s body).marks = body.marks := by
  rw [marks_eq]
  simp [opening, closing, children]

theorem marks_ifElse (s : Span) (c yes : Node) (no : Option Node) :
    (ifElse s c yes no).marks = c.marks ++ (yes.marks ++ no.toList.flatMap marks) := by
  rw [marks_eq]
  simp [opening, closing, children]

theorem marks_classDef (s : Span) (d : ClassDecl) :
    (classDef s d).marks =
      .opened d.id d.parent :: (d.methods.flatMap fun m => m.body.marks) ++ [.closed d.id] := by
  rw [marks_eq]
  simp [opening, closing, children, List.flatMap_map]

/-! ### Marks, classes and nodes -/

theorem marks_bare (n : Node) : n.bare.marks = n.marks := by
  induction n using Node.induction with
  | step n ih =>
    have hopen : n.bare.opening = n.opening := by
      cases n with
      | ifElse s c yes no => cases no <;> simp [opening]
      | _ => simp [opening]
    have hclose : n.bare.closing = n.closing := by
      cases n with
      | ifElse s c yes no => cases no <;> simp [closing]
      | _ => simp [closing]
    rw [marks_eq, marks_eq n, hopen, hclose, children_bare, List.flatMap_map, List.flatMap_congr ih]

/-- The ends of classes come in the order in which the classes are listed. -/
theorem filterMap_closes?_marks (n : Node) : n.marks.filterMap Mark.closes? = n.classes.map ClassOf.id := by
  induction n using Node.induction with
  | step n ih =>
    have hopen : n.opening.filterMap Mark.closes? = [] := by
      cases n <;> rfl
    have hclose : n.closing.filterMap Mark.closes? = n.defines.map ClassOf.id := by
      cases n <;> rfl
    rw [marks_eq, classes_eq, List.filterMap_append, List.filterMap_append, hopen, hclose, List.map_append,
      List.nil_append, List.filterMap_flatMap, List.map_flatMap, List.flatMap_congr ih]

/-- What has a header has an end. -/
theorem perm_opens?_closes? (n : Node) :
    (n.marks.filterMap Mark.opens?).Perm (n.marks.filterMap Mark.closes?) := by
  induction n using Node.induction with
  | step n ih =>
    have hself : (n.opening.filterMap Mark.opens?).Perm (n.closing.filterMap Mark.closes?) := by
      cases n <;> exact .refl _
    have hopen : n.opening.filterMap Mark.closes? = [] := by
      cases n <;> rfl
    have hclose : n.closing.filterMap Mark.opens? = [] := by
      cases n <;> rfl
    rw [marks_eq, List.filterMap_append, List.filterMap_append, List.filterMap_append,
      List.filterMap_append, hopen, hclose, List.nil_append, List.append_nil, List.filterMap_flatMap,
      List.filterMap_flatMap]
    exact (hself.append (.flatMap_left _ ih)).trans List.perm_append_comm

/-- The headers of a tree are those of its classes. -/
theorem mem_filterMap_opens?_marks {n : Node} {c : ClassId} :
    c ∈ n.marks.filterMap Mark.opens? ↔ ∃ d ∈ n.classes, d.id = c := by
  rw [n.perm_opens?_closes?.mem_iff, filterMap_closes?_marks, List.mem_map]

/-- What holds of the marks of a node itself and of those below holds of all its marks. -/
theorem forall_marks {n : Node} {Q : Mark → Prop} (hopen : ∀ k ∈ n.opening, Q k)
    (hbelow : ∀ c ∈ n.children, ∀ k ∈ c.marks, Q k) (hclose : ∀ k ∈ n.closing, Q k) :
    ∀ k ∈ n.marks, Q k := by
  intro k hk
  rw [marks_eq, List.mem_append, List.mem_append, List.mem_flatMap] at hk
  rcases hk with (hk | ⟨c, hc, hk⟩) | hk
  · exact hopen k hk
  · exact hbelow c hc k hk
  · exact hclose k hk

/-- The marks of expressions are those of instances. -/
theorem used_of_term {known : ClassId → Prop} {n : Node} (h : n.All (IsTerm known)) :
    ∀ k ∈ n.marks, ∃ c, known c ∧ k = .used c := by
  induction n using Node.induction with
  | step n ih =>
    have hself := h.self
    refine forall_marks ?_ (fun c hc => ih c hc (h.child hc)) ?_
    · cases n with
      | new s cls args => exact List.forall_mem_singleton.2 ⟨cls, hself, rfl⟩
      | classDef s d => cases hself
      | _ => exact List.forall_mem_nil _
    · cases n with
      | classDef s d => cases hself
      | _ => exact List.forall_mem_nil _

/-- So are those of a node that has only expressions below it and no marks of its own. -/
theorem used_of_terms {known : ClassId → Prop} {n : Node} (h : ∀ c ∈ n.children, c.All (IsTerm known))
    (hopen : n.opening = []) (hclose : n.closing = []) : ∀ k ∈ n.marks, ∃ c, known c ∧ k = .used c :=
  forall_marks (hopen ▸ List.forall_mem_nil _) (fun c hc => used_of_term (h c hc))
    (hclose ▸ List.forall_mem_nil _)

theorem Has.marks_subset {n m : Node} (h : n.Has m) : ∀ k ∈ m.marks, k ∈ n.marks := by
  induction h with
  | self n => exact fun _ hk => hk
  | @child n c m hc _ ih =>
    intro k hk
    rw [marks_eq]
    exact List.mem_append_left _ (List.mem_append_right _ (List.mem_flatMap.2 ⟨c, hc, ih k hk⟩))

theorem mem_classes_iff {n : Node} {d : ClassDecl} : d ∈ n.classes ↔ ∃ span, n.Has (.classDef span d) := by
  induction n using Node.induction with
  | step n ih =>
    rw [classes_eq, List.mem_append, List.mem_flatMap]
    constructor
    · rintro (⟨c, hc, hd⟩ | hd)
      · obtain ⟨span, h⟩ := (ih c hc).1 hd
        exact ⟨span, .child hc h⟩
      · cases n with
        | classDef span e =>
          cases List.mem_singleton.1 hd
          exact ⟨span, .self _⟩
        | _ => cases hd
    · rintro ⟨span, h⟩
      cases h with
      | self => exact .inr (List.mem_singleton_self d)
      | child hc h => exact .inl ⟨_, hc, (ih _ hc).2 ⟨span, h⟩⟩

end Node

/-! ### Marks and class names -/

namespace Mark

open Grammar

/-- A mark may stand behind the class names `a`, and leaves the class names `b`. -/
inductive Step (unit : Nat) : ClassNames → Mark → ClassNames → Prop
  | opened {a : ClassNames} {c : String} {parent : Option String} (fresh : c ∉ a.declared)
    (known : ∀ p ∈ parent, p ∈ a.finished) :
    Step unit a (.opened ⟨unit, c⟩ (parent.map (ClassId.mk unit)))
      { a with declared := insert c a.declared }
  | closed {a : ClassNames} (c : String) :
    Step unit a (.closed ⟨unit, c⟩) { a with finished := insert c a.finished }
  | used {a : ClassNames} {c : String} (h : c ∈ a.declared) : Step unit a (.used ⟨unit, c⟩) a

/-- Marks may stand behind the class names `a` one behind the other, and leave the class names `b`. -/
inductive Run (unit : Nat) : ClassNames → List Mark → ClassNames → Prop
  | nil (a : ClassNames) : Run unit a [] a
  | cons {a b d : ClassNames} {k : Mark} {ks : List Mark} (step : Step unit a k b)
    (rest : Run unit b ks d) : Run unit a (k :: ks) d

/-- The parent of a header is a finished class of the same program. -/
theorem Step.finished_of_parent {unit : Nat} {a b : ClassNames} {c p : ClassId}
    (h : Step unit a (.opened c (some p)) b) : p.unit = unit ∧ p.name ∈ a.finished := by
  generalize hk : Mark.opened c (some p) = k at h
  cases h with
  | @opened _ parent _ known =>
    cases parent with
    | none => cases hk
    | some q =>
      cases hk
      exact ⟨rfl, known q rfl⟩
  | closed => cases hk
  | used => cases hk

namespace Run

variable {unit : Nat} {a b d : ClassNames} {ks ls : List Mark}

theorem append (h : Run unit a ks b) (h' : Run unit b ls d) : Run unit a (ks ++ ls) d := by
  induction h with
  | nil => exact h'
  | cons step _ ih => exact .cons step (ih h')

theorem single {k : Mark} (h : Step unit a k b) : Run unit a [k] b := .cons h (.nil b)

/-- The class names between two parts of marks. -/
theorem exists_of_append (h : Run unit a (ks ++ ls) d) : ∃ b, Run unit a ks b ∧ Run unit b ls d := by
  induction ks generalizing a with
  | nil => exact ⟨a, .nil a, h⟩
  | cons k ks ih =>
    cases h with
    | cons step rest =>
      obtain ⟨b, hks, hls⟩ := ih rest
      exact ⟨b, .cons step hks, hls⟩

/-- Instances of declared classes leave the class names as they are. -/
theorem of_used (h : ∀ k ∈ ks, ∃ c : ClassId, (c.unit = unit ∧ c.name ∈ a.declared) ∧ k = .used c) :
    Run unit a ks a := by
  induction ks with
  | nil => exact .nil a
  | cons k ks ih =>
    obtain ⟨⟨c, ⟨rfl, hc⟩, rfl⟩, hks⟩ := List.forall_mem_cons.1 h
    exact .cons (.used hc) (ih hks)

/-- The classes that are declared behind marks are those before and those of the headers. -/
theorem mem_declared (h : Run unit a ks b) {c : String} (hc : c ∈ b.declared) :
    c ∈ a.declared ∨ ⟨unit, c⟩ ∈ ks.filterMap opens? := by
  induction h with
  | nil => exact .inl hc
  | cons step _ ih =>
    cases step with
    | opened fresh known =>
      rcases ih hc with (rfl | h) | h
      · exact .inr List.mem_cons_self
      · exact .inl h
      · exact .inr (List.mem_cons_of_mem _ h)
    | closed => exact ih hc
    | used => exact ih hc

/-- The classes that are finished behind marks are those before and those of the ends. -/
theorem mem_finished (h : Run unit a ks b) {c : String} (hc : c ∈ b.finished) :
    c ∈ a.finished ∨ .closed ⟨unit, c⟩ ∈ ks := by
  induction h with
  | nil => exact .inl hc
  | cons step _ ih =>
    cases step with
    | opened => exact (ih hc).imp_right (List.mem_cons_of_mem _)
    | closed =>
      rcases ih hc with (rfl | h) | h
      · exact .inr List.mem_cons_self
      · exact .inl h
      · exact .inr (List.mem_cons_of_mem _ h)
    | used => exact (ih hc).imp_right (List.mem_cons_of_mem _)

/-- Headers are those of new classes, of names that are all different. -/
theorem opens_fresh (h : Run unit a ks b) :
    ((ks.filterMap opens?).map ClassId.name).Nodup ∧
      ∀ c ∈ ks.filterMap opens?, c.unit = unit ∧ c.name ∉ a.declared := by
  induction h with
  | nil => exact ⟨List.nodup_nil, List.forall_mem_nil _⟩
  | cons step _ ih =>
    obtain ⟨hnodup, hfresh⟩ := ih
    cases step with
    | opened fresh known =>
      refine ⟨List.nodup_cons.2 ⟨fun hmem => ?_, hnodup⟩,
        List.forall_mem_cons.2 ⟨⟨rfl, fresh⟩, fun c hc => ?_⟩⟩
      · obtain ⟨c, hc, hname⟩ := List.mem_map.1 hmem
        exact (hfresh c hc).2 (.inl hname)
      · exact ⟨(hfresh c hc).1, fun hmem => (hfresh c hc).2 (.inr hmem)⟩
    | closed => exact ⟨hnodup, hfresh⟩
    | used => exact ⟨hnodup, hfresh⟩

/-- An instance is made of a class that was declared before or has its header among the marks. -/
theorem opened_of_used (h : Run unit a ks b) {c : ClassId} (hc : .used c ∈ ks) :
    c.unit = unit ∧ (c.name ∈ a.declared ∨ c ∈ ks.filterMap opens?) := by
  obtain ⟨l, r, rfl⟩ := List.append_of_mem hc
  obtain ⟨d, hl, hr⟩ := h.exists_of_append
  cases hr with
  | cons step _ =>
    cases step with
    | used hmem =>
      refine ⟨rfl, (hl.mem_declared hmem).imp_right fun h => ?_⟩
      rw [List.filterMap_append]
      exact List.mem_append_left _ h

/-- The header of a class stands behind the end of its parent, unless this was finished before. -/
theorem closed_of_parent (h : Run unit a ks b) {c p : ClassId} (hc : .opened c (some p) ∈ ks) :
    p.unit = unit ∧ (p.name ∈ a.finished ∨ [.closed p, .opened c (some p)].Sublist ks) := by
  obtain ⟨l, r, rfl⟩ := List.append_of_mem hc
  obtain ⟨d, hl, hr⟩ := h.exists_of_append
  cases hr with
  | cons step _ =>
    obtain ⟨hunit, hp⟩ := step.finished_of_parent
    refine ⟨hunit, (hl.mem_finished hp).imp_right fun hmem => ?_⟩
    subst hunit
    exact (List.singleton_sublist.2 hmem).append (List.singleton_sublist.2 List.mem_cons_self)

end Run

end Mark

namespace Grammar

/-- The marks of what the grammar of statements has texts for. -/
def Clause.marks : Clause → List Mark
  | statement n => n.marks
  | statements ns | suite ns => ns.flatMap Node.marks
  | method m => m.body.marks
  | methods ms => ms.flatMap fun m => m.body.marks

variable {unit : Nat}

/-- The rules of the grammar for class names are those for marks. -/
theorem Writes.run {a b : ClassNames} {c : Clause} {w : List TokenKind} (h : Writes unit a c w b) :
    Mark.Run unit a c.marks b := by
  induction h with
  | ret value => exact .of_used (Node.used_of_terms (List.forall_mem_singleton.2 value.terms) rfl rfl)
  | retNone =>
    refine .of_used (Node.used_of_terms (List.forall_mem_singleton.2 ?_) rfl rfl)
    exact .of_children trivial (List.forall_mem_nil _)
  | printCall args => exact .of_used (Node.used_of_terms args.terms rfl rfl)
  | print items each =>
    refine .of_used (Node.used_of_terms (fun n hn => ?_) rfl rfl)
    obtain ⟨p, hp, rfl⟩ := List.mem_map.1 hn
    exact (each p hp).terms
  | assign value => exact .of_used (Node.used_of_terms (List.forall_mem_singleton.2 value.terms) rfl rfl)
  | setField _ value =>
    exact .of_used (Node.used_of_terms (List.forall_mem_singleton.2 value.terms) rfl rfl)
  | expr value => exact .of_used (Node.used_of_term value.terms)
  | ifThen cond _ ih =>
    rw [Clause.marks, Node.marks_ifElse, Node.marks_block, Option.toList_none, List.flatMap_nil,
      List.append_nil]
    exact (Mark.Run.of_used (Node.used_of_term cond.terms)).append ih
  | ifElse cond _ _ ih ih' =>
    rw [Clause.marks, Node.marks_ifElse, Node.marks_block, Option.toList_some, List.flatMap_singleton,
      Node.marks_block]
    exact (Mark.Run.of_used (Node.used_of_term cond.terms)).append (ih.append ih')
  | classDef fresh known _ _ ih =>
    rw [Clause.marks, Node.marks_classDef]
    exact .cons (.opened fresh known) (ih.append (.single (.closed _)))
  | method _ _ ih =>
    rw [Clause.marks, Node.marks_methodBody, Node.marks_block]
    exact ih
  | suite _ ih => exact ih
  | noStatements => exact .nil _
  | statements _ _ ih ih' => exact ih.append ih'
  | noMethods => exact .nil _
  | methods _ _ ih ih' => exact ih.append ih'

end Grammar

/-! ### Classes of programs that have been read -/

/-- The classes of a tree are closed: their names are all different, instances are made of them only,
and a parent is one of them and ends before the header of its child. -/
structure Node.ClassesClosed (root : Node) : Prop where
  names : (root.classes.map fun d => d.id.name).Nodup
  used : ∀ span cls args, root.Has (.new span cls args) → ∃ d ∈ root.classes, d.id = cls
  parents : ∀ d ∈ root.classes, ∀ p ∈ d.parent, (∃ e ∈ root.classes, e.id = p) ∧
    [.closed p, .opened d.id d.parent].Sublist root.marks

namespace Mark.Run

variable {unit : Nat} {root : Node} {b : Grammar.ClassNames} (h : Mark.Run unit {} root.marks b)
include h

theorem unit_of_mem_classes : ∀ d ∈ root.classes, d.id.unit = unit :=
  fun d hd => (h.opens_fresh.2 d.id (Node.mem_filterMap_opens?_marks.2 ⟨d, hd, rfl⟩)).1

theorem classesClosed : root.ClassesClosed := by
  refine ⟨?_, fun span cls args hn => ?_, fun d hd p hp => ?_⟩
  · have hnames := (root.perm_opens?_closes?.map ClassId.name).nodup_iff.1 h.opens_fresh.1
    rw [root.filterMap_closes?_marks, List.map_map] at hnames
    exact hnames
  · have hmark : .used cls ∈ root.marks := by
      refine hn.marks_subset _ ?_
      rw [Node.marks_eq]
      exact List.mem_cons_self
    rcases (h.opened_of_used hmark).2 with hnone | hopen
    · exact absurd hnone (Set.notMem_empty _)
    · exact Node.mem_filterMap_opens?_marks.1 hopen
  · obtain ⟨span, hn⟩ := Node.mem_classes_iff.1 hd
    have hmark : .opened d.id (some p) ∈ root.marks := by
      refine hn.marks_subset _ ?_
      rw [Node.marks_classDef, Option.mem_def.1 hp]
      exact List.mem_cons_self
    rcases (h.closed_of_parent hmark).2 with hnone | hsub
    · exact absurd hnone (Set.notMem_empty _)
    · have hclosed : p ∈ root.marks.filterMap Mark.closes? :=
        List.mem_filterMap.2 ⟨.closed p, hsub.subset List.mem_cons_self, rfl⟩
      rw [root.filterMap_closes?_marks] at hclosed
      exact ⟨List.mem_map.1 hclosed, by rwa [Option.mem_def.1 hp]⟩

end Mark.Run

/-- The marks of a program that has been read keep the rules for class names. -/
theorem ofTokens_run {unit : Nat} {tokens : List Token} {root : Node}
    (h : Node.ofTokens unit tokens = .ok root) : ∃ b, Mark.Run unit {} root.marks b := by
  obtain ⟨ns, b, hbare, hwrites⟩ := ofTokens_writes h
  have hmarks : root.marks = (Grammar.Clause.statements ns).marks := by
    rw [← Node.marks_bare, hbare, Node.marks_block]
    rfl
  exact ⟨b, hmarks ▸ hwrites.run⟩

end ClassScript

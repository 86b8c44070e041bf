import ClassScript.Syntax.Classes
import Mathlib.Data.List.Basic

/-!
# Trees without places

A bare tree is a tree as it is written, with no regard to where: all its spans are empty.  Two trees
are the same up to their spans if their bare trees are equal.
-/

namespace ClassScript

namespace Node

/-- The tree with all spans taken out of it. -/
@[simp] def bare : Node → Node
  | literal _ v => literal {} v
  | assign _ x v => assign {} x v.bare
  | lookup _ path => lookup {} path
  | print _ args => print {} (args.map bare)
  | call _ object m args => call {} object.bare m (args.map bare)
  | stringify _ arg => stringify {} arg.bare
  | arith _ op l r => arith {} op l.bare r.bare
  | block _ body => block {} (body.map bare)
  | ret _ v => ret {} v.bare
  | classDef _ d =>
    classDef {} ⟨d.id, d.parent, d.methods.map fun m => ⟨m.name, m.params, m.body.bare⟩⟩
  | setField _ object f v => setField {} object f v.bare
  | ifElse _ c yes none => ifElse {} c.bare yes.bare none
  | ifElse _ c yes (some no) => ifElse {} c.bare yes.bare (some no.bare)
  | logic _ op l r => logic {} op l.bare r.bare
  | not _ arg => not {} arg.bare
  | compare _ op l r => compare {} op l.bare r.bare
  | new _ cls args => new {} cls (args.map bare)
  | methodBody _ body => methodBody {} body.bare
termination_by n => n
decreasing_by
  all_goals refine sizeOf_lt_of_mem_children ?_
  all_goals grind [children]

end Node

/-- The method with all spans taken out of its body. -/
def MethodOf.bare (m : Method) : Method := ⟨m.name, m.params, m.body.bare⟩

/-- The class with all spans taken out of its methods. -/
def ClassOf.bare (d : ClassDecl) : ClassDecl := ⟨d.id, d.parent, d.methods.map MethodOf.bare⟩

theorem Node.bare_classDef (s : Span) (d : ClassDecl) :
    (classDef s d).bare = classDef {} ⟨d.id, d.parent, d.methods.map MethodOf.bare⟩ := by
  rw [Node.bare]
  rfl

namespace Node

theorem children_bare (n : Node) : n.bare.children = n.children.map bare := by
  cases n with
  | ifElse s c yes no => cases no <;> simp [children]
  | _ => simp [children]

theorem Has.bare {n m : Node} (h : n.Has m) : n.bare.Has m.bare := by
  induction h with
  | self n => exact .self _
  | @child n c m hc _ ih =>
    refine .child ?_ ih
    rw [children_bare]
    exact List.mem_map.2 ⟨c, hc, rfl⟩

/-- What all nodes of a tree are up to their places is told by its bare tree. -/
theorem All.of_bare {Q Q' : Node → Prop} {n : Node} (h : n.bare.All Q) (hQ : ∀ m : Node, Q m.bare → Q' m) :
    n.All Q' :=
  fun m hm => hQ m (h _ hm.bare)

/-! ### Classes -/

theorem defines_bare (n : Node) : n.bare.defines = n.defines.map ClassOf.bare := by
  cases n with
  | classDef s d =>
    rw [bare_classDef]
    rfl
  | ifElse s c yes no => cases no <;> simp [defines]
  | _ => simp [defines]

/-- The classes of a tree are those of its bare tree but for places. -/
theorem classes_bare (n : Node) : n.bare.classes = n.classes.map ClassOf.bare := by
  induction n using Node.induction with
  | step n ih =>
    rw [classes_eq, classes_eq n, children_bare, defines_bare, List.map_append, List.map_flatMap,
      List.flatMap_map]
    congr 1
    exact List.flatMap_congr ih

/-- Trees that are the same but for places have the same classes. -/
theorem ids_classes_of_bare {n n' : Node} (h : n.bare = n'.bare) :
    n.classes.map ClassOf.id = n'.classes.map ClassOf.id := by
  have hbare (n : Node) : n.bare.classes.map ClassOf.id = n.classes.map ClassOf.id := by
    rw [classes_bare, List.map_map]
    rfl
  rw [← hbare, h, hbare]

theorem outerClasses_bare (n : Node) : n.bare.outerClasses = n.outerClasses.map ClassOf.bare := by
  induction n using Node.induction with
  | step n ih =>
    cases n with
    | classDef s d =>
      rw [bare_classDef, outerClasses_classDef, outerClasses_classDef]
      rfl
    | _ =>
      rw [outerClasses_eq (by rw [defines_bare]; rfl), outerClasses_eq (by rfl), children_bare,
        List.map_flatMap, List.flatMap_map]
      exact List.flatMap_congr ih

end Node

theorem ClassOf.nested_bare (d : ClassDecl) : d.bare.nested = d.nested := by
  rw [nested, nested, bare, List.flatMap_map]
  refine List.flatMap_congr fun m _ => ?_
  rw [MethodOf.bare, Node.outerClasses_bare, List.map_map]
  rfl

end ClassScript

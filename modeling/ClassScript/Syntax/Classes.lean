import ClassScript.Syntax.Node

/-!
# The classes of a tree

The class definitions of a tree in the order in which they are finished: those in the methods of a
class come before it.  Main statement: both lists are those of the nodes directly below, put
together (`classes_eq`, `outerClasses_eq`).
-/

namespace ClassScript

namespace Node

/-- The class that a node itself defines. -/
def defines : Node → List ClassDecl
  | classDef _ d => [d]
  | _ => []

/-- All classes defined in a tree, each behind those defined inside it. -/
def classes (n : Node) : List ClassDecl :=
  (n.children.attach.flatMap fun ⟨c, _⟩ => classes c) ++ n.defines
-- the measure is a number, not the node, so that the classes of a closed tree can be evaluated
termination_by sizeOf n
decreasing_by exact sizeOf_lt_of_mem_children ‹_›

theorem classes_eq (n : Node) : n.classes = n.children.flatMap classes ++ n.defines := by
  rw [classes]
  congr 1
  simp

/-- The classes defined in a tree, those inside the methods of others left out. -/
def outerClasses (n : Node) : List ClassDecl :=
  match n.defines with
  | [] => n.children.attach.flatMap fun ⟨c, _⟩ => outerClasses c
  | ds => ds
termination_by sizeOf n
decreasing_by exact sizeOf_lt_of_mem_children ‹_›

theorem outerClasses_classDef (s : Span) (d : ClassDecl) : (classDef s d).outerClasses = [d] := by
  rw [outerClasses]
  simp [defines]

theorem outerClasses_eq {n : Node} (h : n.defines = []) :
    n.outerClasses = n.children.flatMap outerClasses := by
  rw [outerClasses, h]
  simp

end Node

/-- The classes whose definitions stand in the methods of a class. -/
def ClassOf.nested (d : ClassDecl) : List ClassId :=
  d.methods.flatMap fun m => m.body.outerClasses.map ClassOf.id

end ClassScript

import ClassScript.Proofs.ClassMarks
import ClassScript.Proofs.OwnershipGraph
import ClassScript.Run.Program

/-!
# Classes and their owners

The classes of a program that has been read are listed in the order in which their definitions end, and what
a class owns, its parent and the classes defined in its methods, has ended before it
(`Mark.Run.classesOrdered`).  So the classes of a tree that is loaded close no ring of owners
(`Node.ClassesOrdered.acyclic_load`).
-/

namespace ClassScript

open Relation

/-- The definition of a class stands somewhere in a method of another. -/
def ClassOf.Encloses (d e : ClassDecl) : Prop := ∃ m ∈ d.methods, ∃ span, m.body.Has (.classDef span e)

namespace Node

/-- Each class of a tree is defined once, behind the end of its parent and of the classes defined in its
methods. -/
structure ClassesOrdered (root : Node) : Prop where
  ids : (root.classes.map ClassOf.id).Nodup
  parent : ∀ d ∈ root.classes, ∀ p ∈ d.parent, [p, d.id].Sublist (root.classes.map ClassOf.id)
  enclosed : ∀ d ∈ root.classes, ∀ e, ClassOf.Encloses d e → [e.id, d.id].Sublist (root.classes.map ClassOf.id)

/-- The marks of a node stand together among those of the tree. -/
theorem Has.exists_marks {n m : Node} (h : n.Has m) : ∃ l r, n.marks = l ++ m.marks ++ r := by
  induction h with
  | self n => exact ⟨[], [], by simp⟩
  | @child n c m hc _ ih =>
    obtain ⟨l, r, hm⟩ := ih
    obtain ⟨before, behind, hsplit⟩ := List.append_of_mem hc
    refine ⟨n.opening ++ before.flatMap marks ++ l, r ++ (behind.flatMap marks ++ n.closing), ?_⟩
    rw [marks_eq, hsplit, List.flatMap_append, List.flatMap_cons, hm]
    simp only [List.append_assoc]

/-- The classes listed without those inside others stand in the tree. -/
theorem has_of_mem_outerClasses {n : Node} {d : ClassDecl} (h : d ∈ n.outerClasses) :
    ∃ span, n.Has (.classDef span d) := by
  induction n using Node.induction with
  | step n ih =>
    cases hd : n.defines with
    | nil =>
      rw [outerClasses_eq hd] at h
      obtain ⟨c, hc, hmem⟩ := List.mem_flatMap.1 h
      obtain ⟨span, hhas⟩ := ih c hc hmem
      exact ⟨span, .child hc hhas⟩
    | cons e es =>
      cases n with
      | classDef span e' =>
        rw [outerClasses_classDef, List.mem_singleton] at h
        subst h
        exact ⟨span, .self _⟩
      | _ => cases hd

/-- What a class owns has ended before it. -/
theorem ClassesOrdered.before_of_owned {root : Node} (h : root.ClassesOrdered) {d : ClassDecl}
    (hd : d ∈ root.classes) {e : Entity} (he : e ∈ ClassOf.owned d) :
    ∃ c, e = .cls c ∧ [c, d.id].Sublist (root.classes.map ClassOf.id) := by
  obtain ⟨c, hc, rfl⟩ := List.mem_map.1 he
  refine ⟨c, rfl, ?_⟩
  rcases List.mem_append.1 hc with hparent | hnested
  · exact h.parent d hd c (Option.mem_toList.1 hparent)
  · obtain ⟨m, hm, hmem⟩ := List.mem_flatMap.1 hnested
    obtain ⟨e, houter, rfl⟩ := List.mem_map.1 hmem
    exact h.enclosed d hd e ⟨m, hm, has_of_mem_outerClasses houter⟩

end Node

namespace Mark.Run

variable {unit : Nat} {root : Node} {b : Grammar.ClassNames} (h : Mark.Run unit {} root.marks b)
include h

/-- The order in which the classes of a program end is one in which owners come last. -/
theorem classesOrdered : root.ClassesOrdered := by
  have hends {c c' : ClassId} (hsub : [.closed c, .closed c'].Sublist root.marks) :
      [c, c'].Sublist (root.classes.map ClassOf.id) := by
    rw [← root.filterMap_closes?_marks]
    exact hsub.filterMap Mark.closes?
  have hids : ((root.classes.map ClassOf.id).map ClassId.name).Nodup := by
    rw [List.map_map]
    exact h.classesClosed.names
  refine ⟨hids.of_map _, fun d hd p hp => hends ?_, fun d hd e he => hends ?_⟩
  · obtain ⟨span, hhas⟩ := Node.mem_classes_iff.1 hd
    obtain ⟨l, r, hmarks⟩ := hhas.exists_marks
    rw [Node.marks_classDef, Option.mem_def.1 hp] at hmarks
    -- where the header stands, its parent is finished
    rw [hmarks, List.append_assoc] at h
    obtain ⟨a, hl, hrest⟩ := h.exists_of_append
    cases hrest with
    | cons step _ =>
      obtain ⟨hunit, hfinished⟩ := step.finished_of_parent
      rcases hl.mem_finished hfinished with hnone | hclosed
      · exact absurd hnone (Set.notMem_empty _)
      · subst hunit
        rw [hmarks, List.append_assoc]
        refine (List.singleton_sublist.2 hclosed).append (List.singleton_sublist.2 ?_)
        simp
  · obtain ⟨m, hm, espan, hehas⟩ := he
    obtain ⟨span, hhas⟩ := Node.mem_classes_iff.1 hd
    obtain ⟨l, r, hmarks⟩ := hhas.exists_marks
    have hclosed : .closed e.id ∈ d.methods.flatMap fun m => m.body.marks := by
      refine List.mem_flatMap.2 ⟨m, hm, hehas.marks_subset _ ?_⟩
      rw [Node.marks_classDef]
      exact List.mem_append_right _ List.mem_cons_self
    rw [hmarks, Node.marks_classDef, List.append_assoc]
    refine List.Sublist.trans ?_ (List.sublist_append_right l _)
    refine List.Sublist.trans (.cons _ ?_) (List.sublist_append_left _ r)
    exact (List.singleton_sublist.2 hclosed).append (.refl _)

end Mark.Run

/-! ### Classes that are loaded -/

theorem idxOf_lt_of_sublist {α : Type} [DecidableEq α] {a b : α} {l : List α} (hl : l.Nodup)
    (h : [a, b].Sublist l) : l.idxOf a < l.idxOf b := by
  induction l with
  | nil => cases h
  | cons x l ih =>
    obtain ⟨hx, hl⟩ := List.nodup_cons.1 hl
    cases h with
    | cons _ h =>
      have ha : a ≠ x := fun heq => hx (heq ▸ h.subset List.mem_cons_self)
      have hb : b ≠ x := fun heq => hx (heq ▸ h.subset (List.mem_cons_of_mem _ List.mem_cons_self))
      rw [List.idxOf_cons_ne l ha.symm, List.idxOf_cons_ne l hb.symm]
      exact Nat.succ_lt_succ (ih hl h)
    | cons_cons _ h =>
      have hb : b ≠ a := fun heq => hx (heq ▸ h.subset List.mem_cons_self)
      rw [List.idxOf_cons_self, List.idxOf_cons_ne l hb.symm]
      exact Nat.succ_pos _

namespace Heap

variable {h : Heap} {root : Node}

/-- A class of a tree that is loaded is found, and no other class is changed. -/
theorem class?_addClasses (c : ClassId) :
    (∃ d ∈ root.classes, d.id = c ∧ (h.addClasses root.classes).class? c = some d) ∨
      c ∉ root.classes.map ClassOf.id ∧ (h.addClasses root.classes).class? c = h.class? c := by
  have hfind : (h.addClasses root.classes).class? c =
      (root.classes.reverse.find? fun d => d.id = c).or (h.class? c) := List.find?_append
  rw [hfind]
  cases he : root.classes.reverse.find? fun d => d.id = c with
  | some d =>
    refine .inl ⟨d, List.mem_reverse.1 (List.mem_of_find?_eq_some he), ?_, rfl⟩
    simpa using List.find?_some he
  | none =>
    refine .inr ⟨fun hmem => ?_, rfl⟩
    obtain ⟨d, hd, rfl⟩ := List.mem_map.1 hmem
    simpa using List.find?_eq_none.1 he d (List.mem_reverse.2 hd)

/-- Classes of a tree that is loaded own classes of the tree that have ended before them. -/
theorem owns_addClasses (hroot : root.ClassesOrdered) {e f : Entity}
    (hown : (h.addClasses root.classes).Owns e f) :
    (∃ c c', e = .cls c ∧ f = .cls c' ∧ [c', c].Sublist (root.classes.map ClassOf.id)) ∨
      (∀ c ∈ root.classes.map ClassOf.id, e ≠ .cls c) ∧ h.Owns e f := by
  cases e with
  | object o => exact .inr ⟨fun _ _ => nofun, hown⟩
  | cls c =>
    obtain ⟨d, hd, hf⟩ := owns_cls.1 hown
    rcases @class?_addClasses h root c with ⟨d', hmem, rfl, hnew⟩ | ⟨hnot, hold⟩
    · rw [hnew] at hd
      cases hd
      obtain ⟨c', rfl, hsub⟩ := hroot.before_of_owned hmem hf
      exact .inl ⟨_, c', rfl, rfl, hsub⟩
    · rw [hold] at hd
      refine .inr ⟨?_, owns_cls.2 ⟨d, hd, hf⟩⟩
      rintro c' hc' ⟨⟩
      exact hnot hc'

/-- The classes of a tree close no ring: what they own has ended before them. -/
theorem Acyclic.addClasses (hring : h.Acyclic) (hroot : root.ClassesOrdered) :
    (h.addClasses root.classes).Acyclic := by
  let place (c : ClassId) : Nat := (root.classes.map ClassOf.id).idxOf c
  have hlt {c c' : ClassId} (hsub : [c', c].Sublist (root.classes.map ClassOf.id)) : place c' < place c :=
    idxOf_lt_of_sublist hroot.ids hsub
  -- a line from a class of the tree leads to its classes only, and to earlier ones
  have hpath {c : ClassId} {g : Entity} (hc : c ∈ root.classes.map ClassOf.id)
      (hpath : ReflTransGen (h.addClasses root.classes).Owns (.cls c) g) :
      ∃ c' ∈ root.classes.map ClassOf.id, g = .cls c' ∧ place c' ≤ place c := by
    induction hpath with
    | refl => exact ⟨c, hc, rfl, Nat.le_refl _⟩
    | tail _ hown ih =>
      obtain ⟨c', hc', rfl, hle⟩ := ih
      rcases owns_addClasses hroot hown with ⟨a, b, heq, rfl, hsub⟩ | ⟨hnot, -⟩
      · cases heq
        exact ⟨b, hsub.subset List.mem_cons_self, rfl, Nat.le_trans (Nat.le_of_lt (hlt hsub)) hle⟩
      · exact absurd rfl (hnot c' hc')
  refine hring.extend fun e f hown => ?_
  rcases owns_addClasses hroot hown with ⟨c, c', rfl, rfl, hsub⟩ | ⟨-, hold⟩
  · refine .inr fun hback => ?_
    obtain ⟨c'', -, heq, hle⟩ := hpath (hsub.subset List.mem_cons_self) hback
    cases heq
    exact Nat.not_lt.2 hle (hlt hsub)
  · exact .inl hold

end Heap

end ClassScript

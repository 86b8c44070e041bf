import ClassScript.Proofs.ClassLifetimes

/-!
# How methods are found

A class has a line of ancestors, the nearest first (`Heap.Line`).  A method is looked for by its name alone, in
the first class of the line that has one so named and there the first of them (`Nearest`); its parameters are
counted only then.  A call that finds none fails before all else, and one that finds one runs its body, whose
calls on `self` start again at the class of the receiver.  The classes on a heap stand in order if each stands
before its parent (`Heap.Ordered`), as they do in all sessions.  Main statement:
`Heap.Ordered.methods_resolved`.
-/

namespace ClassScript

/-! ### Lines of ancestors -/

/-- The classes from one up to its last ancestor, as the look-up meets them. -/
def ancestors : List ClassDecl → ClassId → List ClassDecl
  | [], _ => []
  | d :: older, c =>
    if d.id = c then
      match d.parent with
      | some p => d :: ancestors older p
      | none => [d]
    else ancestors older c

/-- The look-up of a method goes along the ancestors. -/
theorem methodNamed?_eq_findSome? (cs : List ClassDecl) (c : ClassId) (name : String) :
    methodNamed? cs c name = (ancestors cs c).findSome? fun d => d.own? name := by
  induction cs generalizing c with
  | nil => rfl
  | cons d older ih =>
    rw [methodNamed?, ancestors]
    split
    · cases hown : d.own? name with
      | some m => cases d.parent <;> simp only [List.findSome?_cons, hown]
      | none =>
        cases d.parent with
        | none => simp only [List.findSome?_cons, hown, List.findSome?_nil]
        | some p =>
          simp only [List.findSome?_cons, hown]
          exact ih p
    · exact ih c

namespace Heap

/-- A class and its ancestors: each class is the parent that the one before it names, and the last has none. -/
inductive Line (h : Heap) : ClassId → List ClassDecl → Prop
  | root {d : ClassDecl} (hd : h.class? d.id = some d) (hparent : d.parent = none) : Line h d.id [d]
  | child {d : ClassDecl} {p : ClassId} {ds : List ClassDecl} (hd : h.class? d.id = some d)
      (hparent : d.parent = some p) (rest : Line h p ds) : Line h d.id (d :: ds)

/-- No two classes have one identity, and each stands before its parent. -/
structure Ordered (h : Heap) : Prop where
  ids : (h.classes.map ClassOf.id).Nodup
  parent : ∀ d ∈ h.classes, ∀ p ∈ d.parent, [d.id, p].Sublist (h.classes.map ClassOf.id)

/-- What stands behind an element somewhere stands behind its only place. -/
theorem mem_of_sublist_pair {α : Type} {a b : α} {l r : List α} (hn : (l ++ a :: r).Nodup)
    (h : [a, b].Sublist (l ++ a :: r)) : b ∈ r := by
  induction l with
  | nil =>
    cases h with
    | cons _ h => exact h.subset (List.mem_cons_of_mem _ List.mem_cons_self)
    | cons_cons _ h => exact h.subset List.mem_cons_self
  | cons x l ih =>
    obtain ⟨hx, hn⟩ := List.nodup_cons.1 hn
    cases h with
    | cons _ h => exact ih hn h
    | cons_cons _ _ => exact absurd (List.mem_append_right l List.mem_cons_self) hx

namespace Ordered

variable {h : Heap} (hh : h.Ordered) {front older : List ClassDecl} {d : ClassDecl}
include hh

/-- The parent of a class is among those behind it. -/
theorem parent_mem (hsplit : h.classes = front ++ d :: older) {p : ClassId} (hp : d.parent = some p) :
    p ∈ older.map ClassOf.id := by
  have hmem : d ∈ h.classes := hsplit ▸ List.mem_append_right _ List.mem_cons_self
  have hsub := hh.parent d hmem p hp
  have hids := hh.ids
  rw [hsplit, List.map_append, List.map_cons] at hsub hids
  exact mem_of_sublist_pair hids hsub

theorem class?_of_split (hsplit : h.classes = front ++ d :: older) : h.class? d.id = some d :=
  class?_of_mem hh.ids (hsplit ▸ List.mem_append_right _ List.mem_cons_self)

/-- The look-up meets a class and its ancestors, wherever it starts before the class. -/
theorem ancestors_of_line {c : ClassId} {ds : List ClassDecl} (hline : h.Line c ds)
    (hsplit : h.classes = front ++ older) (hc : c ∈ older.map ClassOf.id) : ancestors older c = ds := by
  induction older generalizing front c ds with
  | nil => cases hc
  | cons e older ih =>
    have hsplit' : h.classes = (front ++ [e]) ++ older := by rw [hsplit, List.append_assoc]; rfl
    rw [ancestors]
    split
    · rename_i heq
      have he := hh.class?_of_split hsplit
      rw [heq] at he
      cases hline with
      | root hd hparent =>
        cases hd.symm.trans he
        rw [hparent]
      | child hd hparent rest =>
        cases hd.symm.trans he
        rw [hparent]
        exact congrArg _ (ih rest hsplit' (hh.parent_mem hsplit hparent))
    · rename_i hne
      exact ih hline hsplit' ((List.mem_cons.1 hc).resolve_left fun heq => hne heq.symm)

/-- Every class has a line of ancestors. -/
theorem exists_line_of_split {c : ClassId} (hsplit : h.classes = front ++ older)
    (hc : c ∈ older.map ClassOf.id) : ∃ ds, h.Line c ds := by
  induction older generalizing front c with
  | nil => cases hc
  | cons e older ih =>
    have hsplit' : h.classes = (front ++ [e]) ++ older := by rw [hsplit, List.append_assoc]; rfl
    rcases List.mem_cons.1 hc with rfl | hc
    · have he := hh.class?_of_split hsplit
      cases hparent : e.parent with
      | none => exact ⟨[e], .root he hparent⟩
      | some p =>
        obtain ⟨ds, hline⟩ := ih hsplit' (hh.parent_mem hsplit hparent)
        exact ⟨e :: ds, .child he hparent hline⟩
    · exact ih hsplit' hc

/-- Every class has a line of ancestors. -/
theorem exists_line (hd : d ∈ h.classes) : ∃ ds, h.Line d.id ds :=
  hh.exists_line_of_split (List.nil_append _).symm (List.mem_map_of_mem hd)

end Ordered

theorem Line.mem {h : Heap} {c : ClassId} {ds : List ClassDecl} (hline : h.Line c ds) :
    c ∈ h.classes.map ClassOf.id := by
  cases hline with
  | root hd | child hd => exact List.mem_map_of_mem (List.mem_of_find?_eq_some hd)

/-- A method is looked up along the line of ancestors. -/
theorem Ordered.getMethod?_eq {h : Heap} (hh : h.Ordered) {c : ClassId} {ds : List ClassDecl}
    (hline : h.Line c ds) (name : String) : h.getMethod? c name = ds.findSome? fun d => d.own? name := by
  rw [getMethod?, methodNamed?_eq_findSome?, hh.ancestors_of_line hline (List.nil_append _).symm hline.mem]

end Heap

/-- The first method of a name in a class. -/
theorem own?_eq_some_iff {d : ClassDecl} {name : String} {method : Method} :
    d.own? name = some method ↔
      ∃ front back, d.methods = front ++ method :: back ∧ method.name = name ∧ ∀ m ∈ front, m.name ≠ name := by
  rw [ClassOf.own?, List.find?_eq_some_iff_append]
  constructor
  · rintro ⟨hname, front, back, hsplit, hfront⟩
    exact ⟨front, back, hsplit, by simpa using hname, fun m hm => by simpa using hfront m hm⟩
  · rintro ⟨front, back, hsplit, hname, hfront⟩
    exact ⟨by simpa using hname, front, back, hsplit, fun m hm => by simpa using hfront m hm⟩

theorem own?_eq_none_iff {d : ClassDecl} {name : String} :
    d.own? name = none ↔ ∀ m ∈ d.methods, m.name ≠ name := by
  rw [ClassOf.own?, List.find?_eq_none]
  simp only [beq_iff_eq, ne_eq]

/-- A method is the first of its name in the first class of a line that has one. -/
def Nearest (ds : List ClassDecl) (name : String) (method : Method) : Prop :=
  ∃ before d behind, ds = before ++ d :: behind ∧ (∀ e ∈ before, ∀ m ∈ e.methods, m.name ≠ name) ∧
    ∃ front back, d.methods = front ++ method :: back ∧ method.name = name ∧ ∀ m ∈ front, m.name ≠ name

namespace Heap.Ordered

variable {h : Heap} (hh : h.Ordered) {c : ClassId} {ds : List ClassDecl} (hline : h.Line c ds) (name : String)
include hh hline

theorem getMethod?_eq_some_iff {method : Method} :
    h.getMethod? c name = some method ↔ Nearest ds name method := by
  rw [hh.getMethod?_eq hline, List.findSome?_eq_some_iff]
  constructor
  · rintro ⟨before, d, behind, hsplit, hown, hbefore⟩
    exact ⟨before, d, behind, hsplit, fun e he => own?_eq_none_iff.1 (hbefore e he), own?_eq_some_iff.1 hown⟩
  · rintro ⟨before, d, behind, hsplit, hbefore, hown⟩
    exact ⟨before, d, behind, hsplit, own?_eq_some_iff.2 hown, fun e he => own?_eq_none_iff.2 (hbefore e he)⟩

theorem getMethod?_eq_none_iff :
    h.getMethod? c name = none ↔ ∀ d ∈ ds, ∀ method ∈ d.methods, method.name ≠ name := by
  rw [hh.getMethod?_eq hline, List.findSome?_eq_none_iff]
  simp only [own?_eq_none_iff]

/-- The number of parameters is looked at when the search is over. -/
theorem findMethod?_eq_some_iff {k : Nat} {method : Method} :
    h.findMethod? c name k = some method ↔ Nearest ds name method ∧ method.params.length = k := by
  rw [findMethod?, Option.filter_eq_some_iff, hh.getMethod?_eq_some_iff hline, decide_eq_true_iff]
  rfl

end Heap.Ordered

/-! ### Frames -/

namespace Scope

/-- Of several values for a name the last is bound. -/
theorem get?_setAll (s : Scope) (bs : List (String × Value)) (x : String) :
    (s.setAll bs).get? x = (bs.reverse.lookup x).or (s.get? x) := by
  induction bs generalizing s with
  | nil => rfl
  | cons b bs ih =>
    rw [setAll, List.foldl_cons]
    refine (ih (s.set b.1 b.2)).trans ?_
    rw [List.reverse_cons, List.lookup_append, Option.or_assoc]
    congr 1
    obtain ⟨y, v⟩ := b
    by_cases hx : x = y
    · subst hx
      rw [get?_set_self, List.lookup_cons_self]
      rfl
    · rw [get?_set_of_ne _ _ hx, List.lookup_cons, beq_false_of_ne hx]
      rfl

/-- In the frame of a call the parameters are bound to the arguments, and `self` to the receiver unless a parameter
has this name. -/
theorem get?_frame (o : ObjId) (params : List String) (args : List Value) (x : String) :
    (frame o params args).get? x =
      ((params.zip args).reverse.lookup x).or (if x = selfName then some (.obj (.shared o)) else none) := by
  rw [frame, get?_setAll]
  congr 1
  split
  · rename_i heq
    rw [heq, get?_set_self]
  · rename_i hne
    rw [get?_set_of_ne _ _ hne, get?_empty]

/-- The frame of a call binds `self` and the parameters, and nothing else. -/
theorem isSome_get?_frame (o : ObjId) {params : List String} {args : List Value}
    (hlen : params.length = args.length) (x : String) :
    ((frame o params args).get? x).isSome ↔ x = selfName ∨ x ∈ params := by
  have hlookup : ((params.zip args).reverse.lookup x).isSome ↔ x ∈ params := by
    rw [← not_iff_not, Option.not_isSome_iff_eq_none, List.lookup_eq_none_iff]
    have hfst : (params.zip args).map Prod.fst = params := List.map_fst_zip (Nat.le_of_eq hlen)
    constructor
    · intro h hx
      rw [← hfst] at hx
      obtain ⟨p, hp, rfl⟩ := List.mem_map.1 hx
      simpa using h p (List.mem_reverse.2 hp)
    · intro h p hp
      refine bne_iff_ne.2 fun heq => h ?_
      rw [heq, ← hfst]
      exact List.mem_map_of_mem (List.mem_reverse.1 hp)
  rw [get?_frame, Option.isSome_or, Bool.or_eq_true, hlookup, or_comm]
  refine or_congr_left ?_
  split <;> simp [*]

end Scope

/-! ### Calls -/

namespace Exec

variable {limit : Option Nat} {e : Node → Exec Value} {o : ObjId} {name : String} {args : List Value}
  {span : Span} {m : Machine}

/-- A call that finds no method fails before all else. -/
theorem callMethod_of_missing (hf : m.target? o name args = none) :
    callMethod limit e o name args span m =
      (.error (.error (.raised (.methodNotFound (m.heap.classOf o).name name args.length) span)),
        (m.told (.enter (m.heap.classOf o).name name args.length)).told .leave) := by
  rw [callMethod_apply, hf]
  rfl

/-- A method that is found is not run if as many are run as may be. -/
theorem callMethod_of_deep {method : Method} (hf : m.target? o name args = some method) {k : Nat}
    (hk : k ≤ m.depth) :
    callMethod (some k) e o name args span m = (.error (.error (.raised (.recursionLimit k) span)),
      (m.told (.enter (m.heap.classOf o).name name args.length)).told .leave) := by
  let m₁ : Machine := m.told (.enter (m.heap.classOf o).name name args.length)
  have hcheck : checkDepth (some k) span m₁ = (.error (.error (.raised (.recursionLimit k) span)), m₁) := by
    show (if k ≤ m.depth then raise (.recursionLimit k) span else (pure () : Exec Unit)) m₁ = _
    rw [if_pos hk]
    rfl
  rw [callMethod_apply, hf, traced_apply]
  dsimp only
  rw [bind_apply, hcheck]

/-- A method is missing just if its call fails for that whatever the limit is. -/
theorem target?_eq_none_iff : m.target? o name args = none ↔
    ∀ limit n, callMethod limit (exec limit n) o name args span m =
      (.error (.error (.raised (.methodNotFound (m.heap.classOf o).name name args.length) span)),
        (m.told (.enter (m.heap.classOf o).name name args.length)).told .leave) := by
  refine ⟨fun hf limit n => callMethod_of_missing hf, fun h => ?_⟩
  cases hf : m.target? o name args with
  | none => rfl
  | some method =>
    have hnone := h (some 0) 0
    rw [callMethod_of_deep hf (Nat.zero_le _)] at hnone
    cases hnone

/-- A call on `self`, where it is bound to a living object, is a call on the object. -/
theorem exec_selfCall (hself : m.scope.get? selfName = some (.obj (.shared o)))
    (hlive : m.live (.object o) = true) (n : Nat) (s s' : Span) (args : List Node) :
    exec limit (n + 2) (.call s (.lookup s' [selfName]) name args) m =
      holding (.obj (.owned o)) (evalArgs (exec limit (n + 1)) args >>= fun vs =>
        callMethod limit (exec limit (n + 1)) o name vs s) m := by
  have hread : m.read [selfName] = .ok (.obj (.owned o)) := by
    rw [Machine.read, hself]
    show (if m.live (.object o) then _ else _) = _
    rw [if_pos hlive]
  have hlookup : exec limit (n + 1) (.lookup s' [selfName]) m = (.ok (.obj (.owned o)), m) := by
    show readPath [selfName] s' m = _
    rw [readPath_apply, hread]
  show callOn (callMethod limit (exec limit (n + 1))) (exec limit (n + 1)) (.lookup s' [selfName]) name args s m = _
  rw [callOn, bind_apply, hlookup]
  rfl

end Exec

open Exec

/-- In a machine, methods of `o` are looked up from `c` as on the heap `h`, and so are those that are called on
`self` where it is bound to `o`. -/
structure Machine.Dispatches (limit : Option Nat) (h : Heap) (o : ObjId) (c : ClassId) (m : Machine) : Prop where
  target : ∀ name args, m.target? o name args = h.findMethod? c name args.length
  selfCall : m.scope.get? selfName = some (.obj (.shared o)) → m.live (.object o) = true →
    ∀ n s s' name (args : List Node), exec limit (n + 2) (.call s (.lookup s' [selfName]) name args) m =
      holding (.obj (.owned o)) (evalArgs (exec limit (n + 1)) args >>= fun vs =>
        callMethod limit (exec limit (n + 1)) o name vs s) m

/-- Whatever is run, methods of an object are looked up from its class. -/
theorem Machine.Extends.dispatches {b m : Machine} (hm : b.Extends m) {o : ObjId} (ho : o < b.heap.fresh)
    (limit : Option Nat) : m.Dispatches limit b.heap o (b.heap.classOf o) where
  target name args := by
    rw [Machine.target?, hm.classOf o ho, Heap.findMethod?, Heap.findMethod?, Heap.getMethod?, Heap.getMethod?,
      hm.classes]
  selfCall hself hlive n s s' _ args := exec_selfCall hself hlive n s s' args

theorem Machine.Extends.dispatches_throughout {b m : Machine} (hm : b.Extends m) {o : ObjId}
    (ho : o < b.heap.fresh) (limit : Option Nat) (n : Nat) (node : Node) :
    Throughout (.always (·.Dispatches limit b.heap o (b.heap.classOf o))) limit n node m := by
  refine (Extends.invariant b).throughout ?_ limit n trivial hm
  exact ⟨fun _ _ _ hm => hm.dispatches ho limit, fun _ _ _ _ hm _ => hm.dispatches ho limit,
    fun _ _ _ _ _ _ hm _ _ => hm.dispatches ho limit, fun _ _ _ _ hm _ => hm.dispatches ho limit,
    fun _ _ _ hm _ => hm.dispatches ho limit⟩

/-- What becomes of a call of a method that is found: it is refused if as many methods are run as may be, and else
the body is run, throughout which methods of the receiver are looked up from its class. -/
structure Machine.Runs (m : Machine) (o : ObjId) (name : String) (args : List Value) (method : Method) : Prop where
  frame : ∀ x, ((m.inBody o name args method).scope.get? x).isSome ↔ x = selfName ∨ x ∈ method.params
  bound : ∀ x, (m.inBody o name args method).scope.get? x =
    ((method.params.zip args).reverse.lookup x).or (if x = selfName then some (.obj (.shared o)) else none)
  refused : ∀ k n span, k ≤ m.depth → callMethod (some k) (exec (some k) n) o name args span m =
    (.error (.error (.raised (.recursionLimit k) span)),
      (m.told (.enter (m.heap.classOf o).name name args.length)).told .leave)
  run : ∀ limit n span, (∀ k ∈ limit, m.depth < k) → callMethod limit (exec limit n) o name args span m =
    (atCall (exec limit n method.body (m.inBody o name args method)).1,
      m.behind (exec limit n method.body (m.inBody o name args method)).2)
  dispatches : ∀ limit n, Throughout (.always (·.Dispatches limit m.heap o (m.heap.classOf o))) limit n
    method.body (m.inBody o name args method)

theorem Machine.runs_of_found {m : Machine} {o : ObjId} {name : String} {args : List Value} {method : Method}
    (ho : o < m.heap.fresh) (hf : m.target? o name args = some method) : m.Runs o name args method where
  frame := Scope.isSome_get?_frame o (of_decide_eq_true (Option.filter_eq_some_iff.1 hf).2)
  bound := Scope.get?_frame o method.params args
  refused _ _ _ hk := callMethod_of_deep hf hk
  run _ _ _ hd := callMethod_of_found hf hd
  dispatches limit n := by
    have hext : m.Extends (m.inBody o name args method) := ⟨rfl, rfl, Nat.le_refl _, fun _ _ => rfl⟩
    exact hext.dispatches_throughout ho limit n method.body

/-- For a class with a line of ancestors: a method is found under its name in the first class of the line that has
one so named, and there it is the first of them; it takes a number of arguments just if it has so many parameters,
whatever stands behind it.  A call on an object of the class fails for want of a method, with nothing changed but
the trace, just if none is found, and otherwise comes to the body of the one that is. -/
theorem Heap.Ordered.methods_resolved {m : Machine} (hm : m.heap.Ordered) {c : ClassId} {ds : List ClassDecl}
    (hline : m.heap.Line c ds) (name : String) :
    (∀ method, m.heap.getMethod? c name = some method ↔ Nearest ds name method) ∧
      (m.heap.getMethod? c name = none ↔ ∀ d ∈ ds, ∀ method ∈ d.methods, method.name ≠ name) ∧
      (∀ k method, m.heap.findMethod? c name k = some method ↔
        Nearest ds name method ∧ method.params.length = k) ∧
      ∀ o < m.heap.fresh, m.heap.classOf o = c → ∀ args,
        (∀ span, m.heap.findMethod? c name args.length = none ↔
          ∀ limit n, callMethod limit (exec limit n) o name args span m =
            (.error (.error (.raised (.methodNotFound c.name name args.length) span)),
              (m.told (.enter c.name name args.length)).told .leave)) ∧
        ∀ method, m.heap.findMethod? c name args.length = some method → m.Runs o name args method := by
  refine ⟨fun method => hm.getMethod?_eq_some_iff hline name, hm.getMethod?_eq_none_iff hline name,
    fun k method => hm.findMethod?_eq_some_iff hline name, ?_⟩
  rintro o ho rfl args
  exact ⟨fun span => target?_eq_none_iff, fun method hf => Machine.runs_of_found ho hf⟩

/-- A method of the right number of parameters farther up does not help where a nearer one has another number. -/
theorem Heap.Ordered.methods_resolved_shadowed :
    let body : Node := .methodBody {} (.block {} [])
    let base : ClassDecl := ⟨⟨0, "Base"⟩, none, [⟨"f", ["x"], body⟩]⟩
    let mid : ClassDecl := ⟨⟨0, "Mid"⟩, some base.id, [⟨"f", [], body⟩, ⟨"f", ["x"], body⟩]⟩
    let leaf : ClassDecl := ⟨⟨0, "Leaf"⟩, some mid.id, []⟩
    let m : Machine := { heap := (({} : Heap).addClasses [base, mid, leaf]).allocate leaf.id }
    (m.heap.Ordered ∧ m.heap.Line leaf.id [leaf, mid, base]) ∧
      m.heap.getMethod? leaf.id "f" = some ⟨"f", [], body⟩ ∧
      callMethod none (exec none 4) 0 "f" [.int 1] {} m =
        (.error (.error (.raised (.methodNotFound "Leaf" "f" 1) {})),
          (m.told (.enter "Leaf" "f" 1)).told .leave) ∧
      m.Runs 0 "f" [] ⟨"f", [], body⟩ := by
  intro body base mid leaf m
  have hm : m.heap.Ordered := by
    refine ⟨show [leaf.id, mid.id, base.id].Nodup by decide, ?_⟩
    show ∀ d ∈ [leaf, mid, base], ∀ p ∈ d.parent, [d.id, p].Sublist [leaf.id, mid.id, base.id]
    simp only [List.forall_mem_cons, leaf, mid, base, Option.mem_def, Option.some.injEq, forall_eq']
    exact ⟨by decide, by decide, nofun, nofun⟩
  have hline : m.heap.Line leaf.id [leaf, mid, base] := .child rfl rfl (.child rfl rfl (.root rfl rfl))
  obtain ⟨hget, -, hfind, hcall⟩ := hm.methods_resolved hline "f"
  have hnear : Nearest [leaf, mid, base] "f" ⟨"f", [], body⟩ :=
    ⟨[leaf], mid, [base], rfl, by simp [leaf], [], [⟨"f", ["x"], body⟩], rfl, rfl, nofun⟩
  refine ⟨⟨hm, hline⟩, (hget _).2 hnear, ?_, ?_⟩
  · exact ((hcall 0 Nat.one_pos rfl [.int 1]).1 {}).1 rfl none 4
  · exact (hcall 0 Nat.one_pos rfl []).2 _ ((hfind 0 _).2 ⟨hnear, rfl⟩)

/-! ### Sessions -/

namespace Heap.Ordered

variable {h h' : Heap}

theorem of_classes (hh : h.Ordered) (heq : h'.classes = h.classes) : h'.Ordered :=
  ⟨heq ▸ hh.ids, heq ▸ hh.parent⟩

/-- The classes of a program come in order before those that are there. -/
theorem addClasses (hh : h.Ordered) {root : Node} (hroot : root.ClassesOrdered)
    (hids : ((h.addClasses root.classes).classes.map ClassOf.id).Nodup) : (h.addClasses root.classes).Ordered := by
  refine ⟨hids, fun d hd p hp => ?_⟩
  show [d.id, p].Sublist ((root.classes.reverse ++ h.classes).map ClassOf.id)
  rw [List.map_append, List.map_reverse]
  rcases List.mem_append.1 hd with hnew | hold
  · have hsub := (hroot.parent d (List.mem_reverse.1 hnew) p hp).reverse
    exact hsub.trans (List.sublist_append_left _ _)
  · exact (hh.parent d hold p hp).trans (List.sublist_append_right _ _)

end Heap.Ordered

namespace Session

theorem Sound.ordered_loaded {s : Session} (h : s.Sound) (hs : s.machine.heap.Ordered) {text : String} {root : Node}
    (hroot : Node.ofText (s.count + 1) text = .ok root) (sink : Sink) : (s.loaded sink root).heap.Ordered := by
  obtain ⟨ts, -, hts⟩ := Node.ofText_eq_ok_iff.1 hroot
  obtain ⟨b, hrun⟩ := ofTokens_run hts
  exact hs.addClasses hrun.classesOrdered (h.ids_loaded hroot sink)

/-- In a session the classes on the heap stand in order, between programs and while one is run. -/
theorem Reached.ordered {s : Session} (h : s.Reached) : s.machine.heap.Ordered ∧
    ∀ text root, Node.ofText (s.count + 1) text = .ok root → ∀ sink m, (s.loaded sink root).Extends m →
      m.heap.Ordered := by
  have hs : s.machine.heap.Ordered := by
    induction h with
    | start => exact ⟨List.nodup_nil, nofun⟩
    | reject _ _ ih => exact ih
    | @run s text root sink limit fuel r m hreached hroot hrun ih =>
      have hm : (exec limit fuel root (s.loaded sink root)).2 = m := congrArg Prod.snd hrun
      have hcont := hreached.sound.continues hroot sink limit fuel
      rw [hm] at hcont
      exact (hreached.sound.ordered_loaded ih hroot sink).of_classes hcont.classes
    | remove _ _ ih => exact ih
  refine ⟨hs, fun text root hroot sink m hm => ?_⟩
  exact (h.sound.ordered_loaded hs hroot sink).of_classes hm.classes

end Session

end ClassScript

import ClassScript.Proofs.ClassMarks
import ClassScript.Proofs.Places
import ClassScript.Proofs.Reaching
import ClassScript.Proofs.RoundTrip
import ClassScript.Proofs.TextsJoined
import ClassScript.Run.Program

/-!
# One program behind another

What is written behind some class names is written as well behind more of them, if it declares none of these
and `str` is not among them.  So the text of a program behind that of another one is a program, with the
statements of both, and a run of it goes through those of the first and then through those of the second.
In between nothing happens: the value that the first program gives is in use until the first statement of the
second has ended.  Main statement: `ofText_append`.
-/

namespace ClassScript

/-! ### More class names -/

namespace Grammar

variable {unit : Nat}

/-- Class names and more of them. -/
def ClassNames.join (a e : ClassNames) : ClassNames := ⟨a.declared ∪ e.declared, a.finished ∪ e.finished⟩

theorem Spells.more {known more : Set String} {p : Phrase} {w : List TokenKind} (h : Spells unit known p w)
    (hstr : "str" ∉ more) : Spells unit (known ∪ more) p w := by
  induction h with
  | binary ps _ rank _ ih ih' => exact .binary ps ih rank ih'
  | not _ ih => exact .not ih
  | compare op _ _ ih ih' => exact .compare op ih ih'
  | minus _ ih => exact .minus ih
  | call ps _ _ ih ih' => exact .call ps ih ih'
  | literal h => exact .literal h
  | paren _ ih => exact .paren ih
  | str free _ ih => exact .str (fun hm => hm.elim free hstr) ih
  | new declared _ ih => exact .new (.inl declared) ih
  | lookup h => exact .lookup h
  | dottedCall h _ ih => exact .dottedCall h ih
  | args items _ ih => exact .args items ih

/-- What is written behind class names is written behind more of them, if it declares none of these. -/
theorem Writes.more {a b e : ClassNames} {c : Clause} {w : List TokenKind} (h : Writes unit a c w b)
    (hstr : "str" ∉ e.declared) (hnew : ∀ x ∈ e.declared, x ∉ b.declared) :
    Writes unit (a.join e) c w (b.join e) := by
  induction h with
  | ret value => exact .ret (value.more hstr)
  | retNone => exact .retNone
  | printCall args => exact .printCall (args.more hstr)
  | print items each => exact .print items fun p hp => (each p hp).more hstr
  | assign value => exact .assign (value.more hstr)
  | setField h value => exact .setField h (value.more hstr)
  | expr value => exact .expr (value.more hstr)
  | ifThen cond _ ih => exact .ifThen (cond.more hstr) (ih hnew)
  | ifElse cond _ other ih ih' =>
    have hyes := ih fun x hx hm => hnew x hx (other.declared_subset hm)
    exact .ifElse (cond.more hstr) hyes (ih' hnew)
  | @classDef a b c parent ms w fresh known body nonempty ih =>
    -- the class itself is among the names behind it, so it is none of the new ones
    have hc : c ∈ b.declared := body.declared_subset (Set.mem_insert _ _)
    have hfresh : c ∉ (a.join e).declared := fun hm => hm.elim fresh fun hx => hnew c hx hc
    have hbody := ih hnew
    rw [ClassNames.join, show insert c a.declared ∪ e.declared = insert c (a.join e).declared from
      Set.insert_union] at hbody
    have hclass := Writes.classDef hfresh (fun p hp => .inl (known p hp)) hbody nonempty
    rwa [show insert c (b.join e).finished = insert c b.finished ∪ e.finished from Set.insert_union.symm]
      at hclass
  | method h _ ih => exact .method h (ih hnew)
  | suite _ ih => exact .suite (ih hnew)
  | noStatements => exact .noStatements
  | statements _ rest ih ih' =>
    have hfirst := ih fun x hx hm => hnew x hx (rest.declared_subset hm)
    exact .statements hfirst (ih' hnew)
  | noMethods => exact .noMethods
  | methods _ rest ih ih' =>
    have hfirst := ih fun x hx hm => hnew x hx (rest.declared_subset hm)
    exact .methods hfirst (ih' hnew)

theorem Writes.append {a b d : ClassNames} {ns ms : List Node} {u v : List TokenKind}
    (h : Writes unit a (.statements ns) u b) (h' : Writes unit b (.statements ms) v d) :
    Writes unit a (.statements (ns ++ ms)) (u ++ v) d := by
  generalize hc : Clause.statements ns = c at h
  induction h generalizing ns with
  | noStatements =>
    cases hc
    exact h'
  | statements first _ _ ih =>
    cases hc
    rw [List.append_assoc]
    exact .statements first (ih h' rfl)
  | _ => cases hc

/-- No program begins with an indent. -/
theorem Writes.head?_ne_indent {a b : ClassNames} {ns : List Node} {w : List TokenKind}
    (h : Writes unit a (.statements ns) w b) : w.head? ≠ some .indent := by
  cases h with
  | noStatements => exact nofun
  | statements first _ =>
    cases first with
    | expr value =>
      obtain ⟨k, v, rfl, hk⟩ := value.begins
      rintro ⟨⟩
      obtain ⟨h, -⟩ | ⟨h, -⟩ | ⟨v, h⟩ | ⟨x, h⟩ | h := hk <;> cases h
    | @assign x => exact nofun
    | @setField _ path f n w h value =>
      cases path with
      | nil => exact absurd rfl h
      | cons x path => cases path <;> exact nofun
    | _ => exact nofun

end Grammar

open Grammar Source

/-! ### Texts -/

/-- A text that is read as a program is one of it, up to its end mark. -/
theorem ofText_writes {unit : Nat} {text : String} {root : Node} (h : Node.ofText unit text = .ok root) :
    ∃ us last ns b, tokens text = .ok (us ++ [last]) ∧ last.kind = .eof ∧
      root.bare = .block {} ns ∧ Writes unit {} (.statements ns) (us.map Token.kind) b := by
  obtain ⟨ts, htokens, hroot⟩ := Node.ofText_eq_ok_iff.1 h
  obtain ⟨us, last, rfl, hlast, hus⟩ := tokens_ended htokens
  obtain ⟨ns, -, hbare, -⟩ := ofTokens_writes hroot
  obtain ⟨b, hwrites⟩ := (ofTokens_eq_ok_iff hus hlast ns).1 ⟨root, hroot, hbare⟩
  exact ⟨us, last, ns, b, htokens, hlast, hbare, hwrites⟩

/-- A text that the grammar has for statements is read as a program of them. -/
theorem ofText_of_writes {unit : Nat} {text : String} {ts : List Token} {ns : List Node} {w : List TokenKind}
    {b : ClassNames} (htokens : tokens text = .ok ts) (hkinds : ts.map Token.kind = w ++ [.eof])
    (h : Writes unit {} (.statements ns) w b) :
    ∃ root, Node.ofText unit text = .ok root ∧ root.bare = .block {} ns := by
  obtain ⟨us, last, rfl, hlast, hus⟩ := tokens_ended htokens
  rw [List.map_append, List.map_singleton, hlast] at hkinds
  rw [← List.append_cancel_right hkinds] at h
  obtain ⟨root, hroot, hbare⟩ := (ofTokens_eq_ok_iff hus hlast ns).2 ⟨b, h⟩
  exact ⟨root, Node.ofText_eq_ok_iff.2 ⟨_, htokens, hroot⟩, hbare⟩

/-- The text that a well-formed program is printed as is read as the program, up to spans. -/
theorem ofText_render {unit : Nat} {n : Node} (h : n.WellFormed unit) :
    ∃ root, Node.ofText unit n.render = .ok root ∧ root.bare = n.bare := by
  obtain ⟨s, ns, b, rfl, htree⟩ := h
  have hlines : (Node.block s ns).lines 0 = Clause.lines 0 (.statements ns) := by
    rw [Node.lines]
    rfl
  have hlayout : Layout (Clause.lines 0 (.statements ns)) (Node.block s ns).render.toList := by
    rw [Node.render, String.toList_ofList, hlines]
    exact layout_render (htree.writable 0)
  obtain ⟨ts, hts, hkinds⟩ := tokens_of_layout hlayout
  rw [Node.bare]
  exact ofText_of_writes hts hkinds (htree.writes 0)

theorem Node.eq_block_of_bare {n : Node} {ns : List Node} (h : n.bare = .block {} ns) :
    ∃ s body, n = .block s body ∧ body.map Node.bare = ns := by
  cases n with
  | block s body =>
    rw [Node.bare] at h
    exact ⟨s, body, rfl, (Node.block.inj h).2⟩
  | ifElse s c yes no => cases no <;> simp at h
  | _ => simp at h

/-- The class names behind a program are those of its classes. -/
theorem Grammar.Writes.mem_classes {unit : Nat} {root : Node} {ns : List Node} {w : List TokenKind}
    {b : ClassNames} (h : Writes unit {} (.statements ns) w b) (hbare : root.bare = .block {} ns) {x : String}
    (hx : x ∈ b.declared) : ∃ d ∈ root.classes, d.id.name = x := by
  have hmarks : root.marks = (Clause.statements ns).marks := by
    rw [← Node.marks_bare, hbare, Node.marks_block]
    rfl
  rcases h.run.mem_declared hx with hnone | hopen
  · exact absurd hnone (Set.notMem_empty x)
  · rw [← hmarks] at hopen
    obtain ⟨d, hd, hid⟩ := Node.mem_filterMap_opens?_marks.1 hopen
    exact ⟨d, hd, by rw [hid]⟩

/-! ### Runs -/

/-- Carries out the statements of a tree behind one that gave `last`. This is in use until the first of them
has ended. -/
def Exec.execBehind (limit : Option Nat) (last : Value) : Nat → Node → Exec Value
  | n + 1, .block _ body => block (exec limit n) last body
  | n, node => holding last (exec limit n node)

/-- Runs a tree that is loaded behind a run that gave `last`. -/
def Machine.interpretBehind (m : Machine) (limit : Option Nat) (fuel : Nat) (last : Value) (root : Node) :
    Option (Except RuntimeError Value) × Machine :=
  let (r, m) := Exec.execBehind limit last fuel root m
  (verdict r, m)

/-- Runs a tree that is loaded and, if this succeeds, another one behind it. -/
def Machine.interpretBoth (m : Machine) (limit : Option Nat) (fuel : Nat) (root₁ root₂ : Node) :
    Option (Except RuntimeError Value) × Machine :=
  match m.interpret limit fuel root₁ with
  | (some (.ok v), m) => m.interpretBehind limit fuel v root₂
  | r => r

/-- An error without its place. -/
def RuntimeError.bare : RuntimeError → RuntimeError
  | raised fault _ => raised fault {}
  | output text => output text

namespace Machine

open Exec

/-- What ends alike means the same but for places. -/
theorem verdict_of_endsAlike {r r' : Except Signal Value} (h : EndsAlike (fun _ _ _ => True) r r') :
    (verdict r).map (Except.mapError RuntimeError.bare) =
      (verdict r').map (Except.mapError RuntimeError.bare) := by
  cases h with
  | ok v => rfl
  | error hs => cases hs <;> rfl

/-- A block is run like the two that it is put together of. -/
theorem interpret_append (m : Machine) (limit : Option Nat) (fuel : Nat) (s s₁ s₂ : Span)
    (body₁ body₂ : List Node) :
    m.interpret limit fuel (.block s (body₁ ++ body₂)) =
      m.interpretBoth limit fuel (.block s₁ body₁) (.block s₂ body₂) := by
  cases fuel with
  | zero => rfl
  | succ n =>
    have hrun : exec limit (n + 1) (.block s (body₁ ++ body₂)) =
        exec limit (n + 1) (.block s₁ body₁) >>= fun v => execBehind limit v (n + 1) (.block s₂ body₂) :=
      block_append (exec limit n) .none body₁ body₂
    unfold interpretBoth interpret
    rw [hrun, bind_apply]
    rcases exec limit (n + 1) (.block s₁ body₁) m with ⟨e | v, m'⟩
    · cases e <;> rfl
    · rfl

/-- Trees that are the same up to their spans have the same runs on machines that are akin. -/
theorem Akin.interpret {m m' : Machine} (h : m.Akin m') {root root' : Node} (hbare : root.bare = root'.bare)
    (limit : Option Nat) (fuel : Nat) :
    ((m.interpret limit fuel root).1.map (Except.mapError RuntimeError.bare) =
      (m'.interpret limit fuel root').1.map (Except.mapError RuntimeError.bare)) ∧
    (m.interpret limit fuel root).2.Akin (m'.interpret limit fuel root').2 := by
  obtain ⟨hakin, hend⟩ := same_exec hbare limit fuel m m' h
  exact ⟨verdict_of_endsAlike hend, hakin⟩

/-- Trees that are the same up to their spans give the same value, if they give one. -/
theorem Akin.interpret_eq_ok {m m' : Machine} (h : m.Akin m') {root root' : Node} (hbare : root.bare = root'.bare)
    {limit : Option Nat} {fuel : Nat} {v : Value} (hok : (m'.interpret limit fuel root').1 = some (.ok v)) :
    (m.interpret limit fuel root).1 = some (.ok v) := by
  have heq := (h.interpret hbare limit fuel).1
  rw [hok] at heq
  rcases hr : (m.interpret limit fuel root).1 with - | (e | w)
  · rw [hr] at heq
    cases heq
  · rw [hr] at heq
    cases heq
  · rw [hr] at heq
    cases heq
    rfl

/-- Trees that are the same up to their spans fail with the same fault, if they fail with one. -/
theorem Akin.exists_raised {m m' : Machine} (h : m.Akin m') {root root' : Node} (hbare : root.bare = root'.bare)
    {limit : Option Nat} {fuel : Nat} {fault : RuntimeFault} {span' : Span}
    (hraised : (m'.interpret limit fuel root').1 = some (.error (.raised fault span'))) :
    ∃ span, (m.interpret limit fuel root).1 = some (.error (.raised fault span)) := by
  have heq := (h.interpret hbare limit fuel).1
  rw [hraised] at heq
  rcases hr : (m.interpret limit fuel root).1 with - | (⟨f, span⟩ | text) | w
  · rw [hr] at heq
    cases heq
  · rw [hr] at heq
    cases heq
    exact ⟨span, rfl⟩
  · rw [hr] at heq
    cases heq
  · rw [hr] at heq
    cases heq

/-- A value that is neither an object nor a class may be forgotten between two programs. -/
theorem interpretBehind_of_plain {v : Value} (hv : v.owned = []) (m : Machine) (limit : Option Nat) (fuel : Nat)
    (s : Span) (c : Node) (rest : List Node) :
    let behind := m.interpretBehind limit fuel v (.block s (c :: rest))
    let alone := m.interpret limit fuel (.block s (c :: rest))
    behind.1.map (Except.mapError RuntimeError.bare) = alone.1.map (Except.mapError RuntimeError.bare) ∧
      behind.2.Akin alone.2 := by
  cases fuel with
  | zero => exact ⟨rfl, .refl m⟩
  | succ n =>
    have hnode (node : Node) : Same (exec limit n node) (exec limit n node) := same_exec rfl limit n
    have hfirst : Same (holding v (exec limit n c)) (holding .none (exec limit n c)) := (hnode c).holding hv
    have hblock : Same (block (exec limit n) v (c :: rest)) (block (exec limit n) .none (c :: rest)) :=
      hfirst.bind fun w => .block Akin.simulation (List.forall₂_same.2 fun c' _ => hnode c') w
    obtain ⟨hakin, hend⟩ := hblock m m (.refl m)
    exact ⟨verdict_of_endsAlike hend, hakin⟩

/-- Trees that are the same up to their spans make the same classes at hand, but for places. -/
theorem Akin.load {m m' : Machine} (h : m.Akin m') {root root' : Node} (hbare : root.bare = root'.bare) :
    (m.load root).Akin (m'.load root') := by
  have hclasses : root.classes.map ClassOf.bare = root'.classes.map ClassOf.bare := by
    rw [← Node.classes_bare, hbare, Node.classes_bare]
  have hids := Node.ids_classes_of_bare hbare
  refine { h with pinned := fun c => ?_, heap := ⟨h.heap.objects, ?_⟩ }
  · show c ∈ root.classes.map ClassOf.id ++ m.pinned ↔ c ∈ root'.classes.map ClassOf.id ++ m'.pinned
    rw [hids, List.mem_append, List.mem_append, h.pinned]
  · show (root.classes.reverse ++ m.heap.classes).map ClassOf.bare =
      (root'.classes.reverse ++ m'.heap.classes).map ClassOf.bare
    rw [List.map_append, List.map_append, List.map_reverse, List.map_reverse, hclasses, h.heap.classes]

/-- A block makes the classes at hand of the two that it is put together of. -/
theorem akin_load_append (m : Machine) (s s₁ s₂ : Span) (body₁ body₂ : List Node) :
    (m.load (.block s (body₁ ++ body₂))).Akin ((m.load (.block s₁ body₁)).load (.block s₂ body₂)) := by
  have hblock (s : Span) (body : List Node) : (Node.block s body).classes = body.flatMap Node.classes := by
    rw [Node.classes_eq]
    exact List.append_nil _
  have hclasses : (Node.block s (body₁ ++ body₂)).classes =
      (Node.block s₁ body₁).classes ++ (Node.block s₂ body₂).classes := by
    rw [hblock, hblock, hblock, List.flatMap_append]
  refine { Akin.refl m with pinned := fun c => ?_, heap := ⟨rfl, ?_⟩ }
  · simp only [load, hclasses, List.map_append, List.mem_append]
    tauto
  · simp only [load, Heap.addClasses, hclasses, List.reverse_append, List.append_assoc]

end Machine

/-- The text of a program behind that of another one, which is empty or ends a line, is read as a program
with the statements of both. It is run like the first program and, if this succeeds, the second behind it.
Both bear one number, so it is by name that their classes are told apart. -/
theorem ofText_append {unit : Nat} {front back : String} {root₁ root₂ : Node}
    (hfront : front = "" ∨ ∃ s, front = s ++ "\n") (h₁ : Node.ofText unit front = .ok root₁)
    (h₂ : Node.ofText unit back = .ok root₂)
    (hnames : ∀ d ∈ root₁.classes, ∀ e ∈ root₂.classes, d.id.name ≠ e.id.name)
    (hstr : ∀ d ∈ root₁.classes, d.id.name ≠ "str") :
    (∃ ts us vs ks, tokens front = .ok ts ∧ tokens back = .ok us ∧ tokens (front ++ back) = .ok vs ∧
      ts.map Token.kind = ks ++ [.eof] ∧ vs.map Token.kind = ks ++ us.map Token.kind) ∧
    ∃ s s₁ s₂ body body₁ body₂, root₁ = .block s₁ body₁ ∧ root₂ = .block s₂ body₂ ∧
      Node.ofText unit (front ++ back) = .ok (.block s body) ∧
      body.map Node.bare = body₁.map Node.bare ++ body₂.map Node.bare ∧
      ∀ (m : Machine) (limit : Option Nat) (fuel : Nat),
        let joined := (m.load (.block s body)).interpret limit fuel (.block s body)
        let both := ((m.load root₁).load root₂).interpretBoth limit fuel root₁ root₂
        joined.1.map (Except.mapError RuntimeError.bare) = both.1.map (Except.mapError RuntimeError.bare) ∧
          joined.2.sink = both.2.sink ∧ joined.2.scope = both.2.scope ∧
          joined.2.heap.objects = both.2.heap.objects ∧ joined.2.trace = both.2.trace := by
  obtain ⟨us₁, last₁, ns₁, b₁, ht₁, hlast₁, hbare₁, hwrites₁⟩ := ofText_writes h₁
  obtain ⟨us₂, last₂, ns₂, b₂, ht₂, hlast₂, hbare₂, hwrites₂⟩ := ofText_writes h₂
  have hback : ((us₂ ++ [last₂]).map Token.kind).head? ≠ some .indent := by
    rw [List.map_append, List.map_singleton, hlast₂, List.head?_append]
    have hfirst := hwrites₂.head?_ne_indent
    cases hk : (us₂.map Token.kind).head? with
    | none => exact nofun
    | some k =>
      rw [hk] at hfirst
      exact hfirst
  -- the tokens, and then the tree that the grammar has for them behind the names of the first program
  obtain ⟨vs, hvs, ks, hks, hkinds⟩ := tokens_append hfront ht₁ ht₂ hback
  refine ⟨⟨_, _, vs, ks, ht₁, ht₂, hvs, hks, hkinds⟩, ?_⟩
  have hnew : ∀ x ∈ b₁.declared, x ∉ b₂.declared := by
    intro x hx hx'
    obtain ⟨d, hd, rfl⟩ := hwrites₁.mem_classes hbare₁ hx
    obtain ⟨e, he, hname⟩ := hwrites₂.mem_classes hbare₂ hx'
    exact hnames d hd e he hname.symm
  have hfree : "str" ∉ b₁.declared := by
    intro hx
    obtain ⟨d, hd, hname⟩ := hwrites₁.mem_classes hbare₁ hx
    exact hstr d hd hname
  have hmore := hwrites₂.more hfree hnew
  rw [show ClassNames.join {} b₁ = b₁ by rw [ClassNames.join, Set.empty_union, Set.empty_union]] at hmore
  have hkinds' : vs.map Token.kind = us₁.map Token.kind ++ us₂.map Token.kind ++ [.eof] := by
    rw [List.map_append, List.map_singleton, hlast₁] at hks
    rw [hkinds, ← List.append_cancel_right hks, List.map_append, List.map_singleton, hlast₂, List.append_assoc]
  obtain ⟨root, hroot, hbare⟩ := ofText_of_writes hvs hkinds' (hwrites₁.append hmore)
  obtain ⟨s, body, rfl, hbody⟩ := Node.eq_block_of_bare hbare
  obtain ⟨s₁, body₁, rfl, rfl⟩ := Node.eq_block_of_bare hbare₁
  obtain ⟨s₂, body₂, rfl, rfl⟩ := Node.eq_block_of_bare hbare₂
  refine ⟨s, s₁, s₂, body, body₁, body₂, rfl, rfl, hroot, hbody, fun m limit fuel => ?_⟩
  -- the run, up to spans, is that of the two bodies one behind the other
  have hjoined : (Node.block s body).bare = (Node.block s (body₁ ++ body₂)).bare := by
    rw [Node.bare, Node.bare, hbody, List.map_append]
  have hload := ((Machine.Akin.refl m).load hjoined).trans (Machine.akin_load_append m s s₁ s₂ body₁ body₂)
  have hrun := hload.interpret hjoined limit fuel
  rw [Machine.interpret_append _ limit fuel s s₁ s₂] at hrun
  obtain ⟨hend, hakin⟩ := hrun
  exact ⟨hend, hakin.sink, hakin.scope, hakin.heap.objects, hakin.trace⟩

theorem ofText_append_print :
    let front := "class A :\n  def f ( self ) :\n    return 7\n"
    let back := "class B :\n  def g ( self ) :\n    return 8\nprint B ( ) . g ( )\n"
    ∃ root₁ root₂ root, Node.ofText 0 front = .ok root₁ ∧ Node.ofText 0 back = .ok root₂ ∧
      Node.ofText 0 (front ++ back) = .ok root ∧
      ((Machine.load {} root).interpret none 9 root).2.sink.written = "8\n".toUTF8 ∧
      (((Machine.load {} root₁).load root₂).interpretBoth none 9 root₁ root₂).2.sink.written =
        "8\n".toUTF8 := by
  intro front back
  have hint (i : Int64) (hi : 0 ≤ i) : ∀ j, Literal.int i = .int j → 0 ≤ j := by
    rintro j ⟨⟩
    exact hi
  let gives (i : Int64) : Node := .methodBody {} (.block {} [.ret {} (.literal {} (.int i))])
  let A : ClassDecl := ⟨⟨0, "A"⟩, none, [⟨"f", [], gives 7⟩]⟩
  let B : ClassDecl := ⟨⟨0, "B"⟩, none, [⟨"g", [], gives 8⟩]⟩
  let uses : Node := .print {} [.call {} (.new {} B.id []) "g" []]
  let n₁ : Node := .block {} [.classDef {} A]
  let n₂ : Node := .block {} [.classDef {} B, uses]
  have hgives {a : ClassNames} {m : String} {i : Int64} (hm : isName m = true) (hi : 0 ≤ i) :
      Tree 0 a (.methods [⟨m, [], gives i⟩]) a :=
    .methods (.method hm (List.forall_mem_nil _) (List.cons_ne_nil _ _)
      (.statements (.ret (.literal (hint i hi))) .noStatements)) .noMethods
  have hn₁ : n₁.WellFormed 0 :=
    ⟨_, _, _, rfl, .statements
      (@Tree.classDef 0 {} _ {} "A" none _ (by decide) (Set.notMem_empty _) nofun (List.cons_ne_nil _ _)
        (hgives (by decide) (by decide))) .noStatements⟩
  have hn₂ : n₂.WellFormed 0 :=
    ⟨_, _, _, rfl, .statements
      (@Tree.classDef 0 {} _ {} "B" none _ (by decide) (Set.notMem_empty _) nofun (List.cons_ne_nil _ _)
        (hgives (by decide) (by decide)))
      (.statements (.print (List.forall_mem_singleton.2 (.call (.new (Set.mem_insert _ _) (by decide)
        (List.forall_mem_nil _)) (by decide) (List.forall_mem_nil _)))) .noStatements)⟩
  have hfront : n₁.render = front := by
    simp only [n₁, A, gives, Node.render, Node.lines, Node.words, List.flatMap_cons, List.map_cons,
      List.map_nil, List.flatMap_nil]
    decide
  have hback : n₂.render = back := by
    simp only [n₂, B, gives, uses, Node.render, Node.lines, Node.words, List.flatMap_cons, List.map_cons,
      List.map_nil, List.flatMap_nil]
    decide
  obtain ⟨root₁, h₁, hbare₁⟩ := ofText_render hn₁
  obtain ⟨root₂, h₂, hbare₂⟩ := ofText_render hn₂
  rw [hfront] at h₁
  rw [hback] at h₂
  have hids₁ : root₁.classes.map ClassOf.id = [A.id] := by
    rw [Node.ids_classes_of_bare hbare₁]
    simp [Node.classes_eq, Node.children, Node.defines, n₁, A, gives]
  have hids₂ : root₂.classes.map ClassOf.id = [B.id] := by
    rw [Node.ids_classes_of_bare hbare₂]
    simp [Node.classes_eq, Node.children, Node.defines, n₂, B, gives, uses]
  have hA : ∀ d ∈ root₁.classes, d.id = A.id :=
    fun d hd => List.eq_of_mem_singleton (hids₁ ▸ List.mem_map_of_mem hd)
  have hB : ∀ d ∈ root₂.classes, d.id = B.id :=
    fun d hd => List.eq_of_mem_singleton (hids₂ ▸ List.mem_map_of_mem hd)
  have hended : front = "" ∨ ∃ s, front = s ++ "\n" :=
    .inr ⟨"class A :\n  def f ( self ) :\n    return 7", by decide⟩
  have hnames : ∀ d ∈ root₁.classes, ∀ e ∈ root₂.classes, d.id.name ≠ e.id.name := by
    intro d hd e he
    rw [hA d hd, hB e he]
    decide
  have hstr : ∀ d ∈ root₁.classes, d.id.name ≠ "str" := by
    intro d hd
    rw [hA d hd]
    decide
  obtain ⟨-, s, s₁, s₂, body, body₁, body₂, rfl, rfl, hroot, hbody, hrun⟩ :=
    ofText_append hended h₁ h₂ hnames hstr
  let n : Node := .block {} [.classDef {} A, .classDef {} B, uses]
  have hbare : (Node.block s body).bare = n.bare := by
    rw [Node.bare, Node.bare] at hbare₁ hbare₂
    rw [Node.bare, Node.bare, hbody, (Node.block.inj hbare₁).2, (Node.block.inj hbare₂).2]
    rfl
  have hwritten :
      ((Machine.load {} (.block s body)).interpret none 9 (.block s body)).2.sink.written = "8\n".toUTF8 := by
    rw [(((Machine.Akin.refl {}).load hbare).interpret hbare none 9).2.sink]
    dsimp only [n, A, B, uses, gives]
    decide +kernel
  exact ⟨_, _, _, h₁, h₂, hroot, hwritten, (hrun {} none 9).2.1 ▸ hwritten⟩

/-- Two programs run one after the other without what the first has given: when the second one comes, nothing
owns the class `D` any more, since its program is gone and the first program has taken its last object away.
Behind the first program, in one text, the second one succeeds. -/
theorem interpret_append_holds_value :
    let zero : Node := .literal {} (.int 0)
    let d : ClassDecl := ⟨⟨0, "D"⟩, none, [⟨"m", [], .methodBody {} (.block {} [.ret {} zero])⟩]⟩
    let c : ClassDecl := ⟨⟨0, "C"⟩, none,
      [⟨"take", [], .methodBody {} (.block {} [.assign {} "r" (.lookup {} ["self", "d"]),
          .setField {} ["self"] "d" zero, .ret {} (.lookup {} ["r"])])⟩,
        ⟨"f", [], .methodBody {} (.block {} [.ret {} (.new {} ⟨0, "D"⟩ [])])⟩]⟩
    let before : Node := .block {} [.classDef {} d, .classDef {} c, .assign {} "c" (.new {} c.id []),
      .setField {} ["c"] "d" (.new {} d.id []), .assign {} "C" zero, .assign {} "D" zero]
    let m := ((Machine.load {} before).interpret none 9 before).2.unload
    let front := "c . take ( )\n"
    let back := "c . f ( )\n"
    ∃ root₁ root₂ root, Node.ofText 1 front = .ok root₁ ∧ Node.ofText 1 back = .ok root₂ ∧
      Node.ofText 1 (front ++ back) = .ok root ∧
      ((m.load root).interpret none 9 root).1.map (Except.mapError RuntimeError.bare) =
        some (.ok (.obj (.owned 2))) ∧
      let first := ((m.load root₁).load root₂).interpret none 9 root₁
      first.1.map (Except.mapError RuntimeError.bare) = some (.ok (.obj (.owned 1))) ∧
        (first.2.interpret none 9 root₂).1.map (Except.mapError RuntimeError.bare) =
          some (.error (.raised (.nameError "D") {})) := by
  intro zero d c before m front back
  let calls (method : String) : Node := .call {} (.lookup {} ["c"]) method []
  have hcalls {method : String} (h : isName method = true) : Tree 1 {} (.statement (calls method)) {} :=
    .expr (.call (.lookup (by decide) (by decide)) h (List.forall_mem_nil _))
  have htake : Tree 1 {} (.statement (calls "take")) {} := hcalls (by decide)
  have hf : Tree 1 {} (.statement (calls "f")) {} := hcalls (by decide)
  let n₁ : Node := .block {} [calls "take"]
  let n₂ : Node := .block {} [calls "f"]
  let n : Node := .block {} [calls "take", calls "f"]
  have hn₁ : n₁.WellFormed 1 := ⟨_, _, _, rfl, .statements htake .noStatements⟩
  have hn₂ : n₂.WellFormed 1 := ⟨_, _, _, rfl, .statements hf .noStatements⟩
  have hn : n.WellFormed 1 := ⟨_, _, _, rfl, .statements htake (.statements hf .noStatements)⟩
  have htexts : n₁.render = front ∧ n₂.render = back ∧ n.render = front ++ back := by
    simp only [n₁, n₂, n, calls, Node.render, Node.lines, Node.words, List.flatMap_cons, List.map_nil,
      List.flatMap_nil]
    decide
  obtain ⟨root₁, h₁, hbare₁⟩ := ofText_render hn₁
  obtain ⟨root₂, h₂, hbare₂⟩ := ofText_render hn₂
  obtain ⟨root, h, hbare⟩ := ofText_render hn
  rw [htexts.1] at h₁
  rw [htexts.2.1] at h₂
  rw [htexts.2.2] at h
  have hload (k : Node) (hk : k.classes = []) (m : Machine) : m.load k = m := by
    rw [Machine.load, hk]
    rfl
  have hload₁ := hload n₁ (by simp [Node.classes_eq, Node.children, Node.defines, n₁, calls]) m
  have hload₂ := hload n₂ (by simp [Node.classes_eq, Node.children, Node.defines, n₂, calls]) m
  have hload' := hload n (by simp [Node.classes_eq, Node.children, Node.defines, n, calls]) m
  have hjoined := ((Machine.Akin.refl m).load hbare).interpret hbare none 9
  have hfirst := (((Machine.Akin.refl m).load hbare₁).load hbare₂).interpret hbare₁ none 9
  have hsecond := hfirst.2.interpret hbare₂ none 9
  rw [hload'] at hjoined
  rw [hload₁, hload₂] at hfirst hsecond
  refine ⟨root₁, root₂, root, h₁, h₂, h, hjoined.1.trans ?_, hfirst.1.trans ?_, hsecond.1.trans ?_⟩
  all_goals
    dsimp only [m, before, n, n₁, n₂, calls, c, d, zero]
    decide +kernel

end ClassScript

import ClassScript.Proofs.ClassesAtHand
import ClassScript.Proofs.Places
import ClassScript.Proofs.Reaching
import ClassScript.Proofs.SharedHandles

/-!
# Values that are held to no purpose

Code that runs while a value is held learns of it only through what is alive because of it.  `Level X b I a` says
that `a` does the same on machines that differ in the values in use, as long as these and the classes at hand own
the same of what `X` says.  It may be shown along with any logic of actions (`Ground.level`).  Main statement: a
value may be let go of if what it owns is owned anyway, and so may an object if all classes are at hand and
handles stand where they belong (`holding_exec_of_spares`).
-/

namespace ClassScript

/-- Whether something is a class. -/
def Entity.IsClass (e : Entity) : Prop := ∃ c, e = .cls c

namespace Machine

/-- Whether a class at hand or a value in use owns something. -/
def Retains (m : Machine) (e : Entity) : Prop := (∃ c ∈ m.pinned, .cls c = e) ∨ ∃ v ∈ m.held, e ∈ v.owned

/-- Machines that are the same but for the values in use, with the classes of `b`.  Of what `X` says and is not
at hand, the values in use own the same. -/
def Beside (X : Entity → Prop) (b m m' : Machine) : Prop :=
  ∃ held, m' = { m with held := held } ∧ m.pinned = b.pinned ∧ m.heap.classes = b.heap.classes ∧
    ∀ e, X e → (∀ c ∈ b.pinned, .cls c ≠ e) → (e ∈ m.held.flatMap Value.owned ↔ e ∈ held.flatMap Value.owned)

namespace Beside

variable {X : Entity → Prop} {b m m' n n' : Machine}

theorem hold (v : Value) (h : Beside X b m m') :
    Beside X b { m with held := v :: m.held } { m' with held := v :: m'.held } := by
  obtain ⟨held, rfl, hpinned, hclasses, howned⟩ := h
  refine ⟨v :: held, rfl, hpinned, hclasses, fun e he hnot => ?_⟩
  rw [List.flatMap_cons, List.flatMap_cons, List.mem_append, List.mem_append, howned e he hnot]

theorem unhold (h : Beside X b m m') (hn : Beside X b n n') :
    Beside X b { n with held := m.held } { n' with held := m'.held } := by
  obtain ⟨held, rfl, -, -, howned⟩ := h
  obtain ⟨held', rfl, hpinned, hclasses, -⟩ := hn
  exact ⟨held, rfl, hpinned, hclasses, howned⟩

/-- What is retained is no more if a value is held that owns nothing else of what `X` says. -/
theorem held {v : Value} (h : ∀ e ∈ v.owned, X e → m.Retains e) : Beside X m m { m with held := v :: m.held } := by
  refine ⟨v :: m.held, rfl, rfl, rfl, fun e he hnot => ?_⟩
  rw [List.flatMap_cons, List.mem_append]
  refine ⟨.inr, fun howned => howned.elim (fun hv => ?_) id⟩
  rcases h e hv he with ⟨c, hc, hce⟩ | ⟨w, hw, hew⟩
  · exact absurd hce (hnot c hc)
  · exact List.mem_flatMap.2 ⟨w, hw, hew⟩

/-- What `X` says is a root of both machines or of neither. -/
theorem mem_roots (h : Beside X b m m') {e : Entity} (he : X e) : e ∈ m.roots ↔ e ∈ m'.roots := by
  obtain ⟨held, rfl, hpinned, -, howned⟩ := h
  simp only [roots, List.mem_append, List.mem_map]
  by_cases hnot : ∀ c ∈ b.pinned, .cls c ≠ e
  · rw [howned e he hnot]
  · push Not at hnot
    rw [hpinned]
    exact iff_of_true (.inl (.inl (.inl hnot))) (.inl (.inl (.inl hnot)))

end Beside

/-- A machine with handles where they belong whose classes are all of trees at hand. -/
structure Settled (m : Machine) : Prop where
  tidy : m.Tidy
  atHand : ∀ d ∈ m.heap.classes, d.id ∈ m.pinned

/-- A machine that starts with the tree of a program and has no other classes is settled. -/
theorem Starting.settled {m : Machine} (h : m.Starting) (hclasses : m.heap.classes = []) (root : Node) :
    (m.load root).Settled := by
  refine ⟨(h.load root).tidy, fun d hd => ?_⟩
  have hd : d ∈ root.classes.reverse ++ m.heap.classes := hd
  rw [hclasses, List.append_nil, List.mem_reverse] at hd
  exact List.mem_append_left _ (List.mem_map_of_mem hd)

/-- Values that need not be held: what they own is owned by values in use or classes at hand, or else no class
is kept alive by them and a machine is settled. -/
def Spares (m : Machine) (v : Value) : Prop :=
  (∀ e ∈ v.owned, m.Retains e) ∨ m.Settled ∧ v.Owning ∧ ∀ c, v = .cls c → m.Retains (.cls c)

/-- Where all classes of the heap are at hand, no class is kept alive by others. -/
theorem live_cls_iff {m : Machine} (h : ∀ d ∈ m.heap.classes, d.id ∈ m.pinned) {c : ClassId} :
    m.live (.cls c) = true ↔ .cls c ∈ m.roots := by
  rw [live, Bool.or_eq_true, isRoot_iff, or_iff_left_iff_imp]
  intro halive
  unfold Heap.alive at halive
  cases hslot : m.heap.slot? (.cls c) with
  | none =>
    rw [hslot] at halive
    cases halive
  | some i =>
    obtain ⟨j, hj, -⟩ := Option.map_eq_some_iff.1 hslot
    obtain ⟨hlt, hid, -⟩ := List.findIdx?_eq_some_iff_getElem.1 hj
    obtain rfl : m.heap.classes[j].id = c := of_decide_eq_true hid
    exact mem_roots.2 (.inl ⟨_, h _ (List.getElem_mem hlt), rfl⟩)

end Machine

namespace Exec

variable {α β : Type}

/-- From machines side by side, both as `I` says, the action ends alike, with machines side by side. -/
def Level (X : Entity → Prop) (b : Machine) (I : Machine → Prop) (a : Exec α) : Prop :=
  ∀ m m', Machine.Beside X b m m' → I m → I m' → (a m).1 = (a m').1 ∧ Machine.Beside X b (a m).2 (a m').2

/-- A logic of actions by which invariants `I hs` of machines that hold `hs` are kept, and such machines side by
side look the same. -/
structure Ground (P : Value → Prop) (K : {α : Type} → List Value → (α → Prop) → Exec α → Exec α → Prop)
    (I : List Value → Machine → Prop) (X : Entity → Prop) (b : Machine) : Prop where
  logic : Logic P (fun _ _ => True) K
  returned : ∀ {hs : List Value} {a c : Exec Value}, K hs P a c → K hs P (returned a) (returned c)
  sound : ∀ {α : Type} {hs : List Value} {Q : α → Prop} {a c : Exec α} {m : Machine}, K hs Q a c → I hs m →
    (∀ x, (a m).1 = .ok x → Q x) ∧ I hs (a m).2
  mono : ∀ {hs js : List Value} {m : Machine}, I js m → (∀ v ∈ hs, v ∈ js) → I hs m
  hold : ∀ {hs : List Value} {v : Value} {m : Machine}, I hs m → P v → I (v :: hs) { m with held := v :: m.held }
  told : ∀ {hs : List Value} {m : Machine} (e : Event), I hs m → I hs (m.told e)
  enter : ∀ {hs : List Value} {a : Handle} {args : List Value} {m : Machine} (params : List String), I hs m →
    .obj a ∈ hs → P (.obj a) → (∀ v ∈ args, P v) →
    I hs { m with scope := .frame a.id params args, callers := m.scope :: m.callers, depth := m.depth + 1 }
  seen : ∀ {hs : List Value} {m m' : Machine}, Machine.Beside X b m m' → I hs m → I hs m' →
    m.Seen P m' ∧ ∀ path, m.read path = m'.read path

namespace Ground

variable {P : Value → Prop} {K : {α : Type} → List Value → (α → Prop) → Exec α → Exec α → Prop}
  {I : List Value → Machine → Prop} {X : Entity → Prop} {b : Machine}

theorem level_bind (hg : Ground P K I X b) {hs : List Value} {Q : α → Prop} {a c : Exec α} {f : α → Exec β}
    (hK : K hs Q a c) (ha : Level X b (I hs) a) (hf : ∀ x, Q x → Level X b (I hs) (f x)) :
    Level X b (I hs) (a >>= f) := by
  intro m m' hb hm hm'
  obtain ⟨hsame, hn⟩ := ha m m' hb hm hm'
  obtain ⟨hQ, hI⟩ := hg.sound hK hm
  obtain ⟨-, hI'⟩ := hg.sound hK hm'
  rw [bind_apply, bind_apply]
  rcases hr : a m with ⟨r, n⟩
  rcases hr' : a m' with ⟨r', n'⟩
  rw [hr, hr'] at hsame hn
  rw [hr] at hQ hI
  rw [hr'] at hI'
  obtain rfl : r = r' := hsame
  cases r with
  | error s => exact ⟨rfl, hn⟩
  | ok x => exact hf x (hQ x rfl) n n' hn hI hI'

theorem level_holding (hg : Ground P K I X b) {hs : List Value} {a : Exec α} {v : Value} (hv : P v)
    (ha : Level X b (I (v :: hs)) a) : Level X b (I hs) (holding v a) := by
  intro m m' hb hm hm'
  obtain ⟨hsame, hn⟩ := ha _ _ (hb.hold v) (hg.hold hm hv) (hg.hold hm' hv)
  exact ⟨hsame, hb.unhold hn⟩

/-- To be level with a logic of actions is a logic of actions. -/
theorem level_logic (hg : Ground P K I X b) :
    Logic P (fun _ _ => True) fun hs Q a c => K hs Q a c ∧ Level X b (I hs) a where
  plain := hg.logic.plain
  cls := hg.logic.cls
  mono h hj hQ := ⟨hg.logic.mono h.1 hj hQ, fun m m' hb hm hm' => h.2 m m' hb (hg.mono hm hj) (hg.mono hm' hj)⟩
  pure hx := ⟨hg.logic.pure hx, fun _ _ hb _ _ => ⟨rfl, hb⟩⟩
  raise span hf := ⟨hg.logic.raise span hf, fun _ _ hb _ _ => ⟨rfl, hb⟩⟩
  ret hv hT := ⟨hg.logic.ret hv hT, fun _ _ hb _ _ => ⟨rfl, hb⟩⟩
  bind h hf := ⟨hg.logic.bind h.1 fun x hx => (hf x hx).1, hg.level_bind h.1 h.2 fun x hx => (hf x hx).2⟩
  read {_ _ _ f _} hf hf' h := by
    refine ⟨hg.logic.read hf hf' fun m => (h m).1, fun m m' hb hm hm' => ?_⟩
    show (f m m).1 = (f m' m').1 ∧ Machine.Beside X b (f m m).2 (f m' m').2
    rw [← hf m m' (hg.seen hb hm hm').1]
    exact (h m).2 m m' hb hm hm'
  holding hv h := ⟨hg.logic.holding hv h.1, hg.level_holding hv h.2⟩
  object span ha := by
    refine ⟨hg.logic.object span ha, fun m m' hb hm hm' => ?_⟩
    rw [object_apply, object_apply, ← (hg.seen hb hm hm').1.resolve ha]
    split
    · exact ⟨rfl, hb⟩
    · exact ⟨rfl, hb⟩
  readPath path span := by
    refine ⟨hg.logic.readPath path span, fun m m' hb hm hm' => ?_⟩
    rw [readPath_apply, readPath_apply, ← (hg.seen hb hm hm').2 path]
    split
    · exact ⟨rfl, hb⟩
    · exact ⟨rfl, hb⟩
  write text := by
    refine ⟨hg.logic.write text, ?_⟩
    rintro m _ ⟨held, rfl, h⟩ - -
    rw [write_apply, write_apply]
    exact ⟨rfl, held, rfl, h⟩
  tell he := by
    refine ⟨hg.logic.tell he, ?_⟩
    rintro m _ ⟨held, rfl, h⟩ - -
    exact ⟨rfl, held, rfl, h⟩
  create cls arity := by
    refine ⟨hg.logic.create cls arity, ?_⟩
    rintro m _ ⟨held, rfl, h⟩ - -
    exact ⟨rfl, held, rfl, h⟩
  setName x _ hv := by
    refine ⟨hg.logic.setName x hv, ?_⟩
    rintro m _ ⟨held, rfl, h⟩ - -
    exact ⟨rfl, held, rfl, h⟩
  setField f _ ho hv := by
    refine ⟨hg.logic.setField f ho hv, ?_⟩
    rintro m _ ⟨held, rfl, h⟩ - -
    exact ⟨rfl, held, rfl, h⟩

theorem level_traced {I : Machine → Prop} (hI : ∀ m e, I m → I (m.told e)) (e : Event) {a : Exec α}
    (ha : Level X b I a) : Level X b I (traced e a) := by
  rintro m _ ⟨held, rfl, h⟩ hm hm'
  obtain ⟨hsame, held', hn, h'⟩ := ha (m.told e) _ ⟨held, rfl, h⟩ (hI m e hm) (hI _ e hm')
  rw [traced_apply, traced_apply]
  refine ⟨hsame, held', ?_, h'⟩
  exact congrArg (·.told .leave) hn

/-- What goes on from the end of an action that leaves the machine as it ends with, is level if the action is. -/
theorem level_ended {I : Machine → Prop} {a c : Exec Value} {f : Except Signal Value → Except Signal Value}
    (hc : ∀ m, c m = (f (a m).1, (a m).2)) (ha : Level X b I a) : Level X b I c := by
  intro m m' hb hm hm'
  obtain ⟨hsame, hn⟩ := ha m m' hb hm hm'
  rw [hc, hc, hsame]
  exact ⟨rfl, hn⟩

theorem level_checked {I : Machine → Prop} {limit : Option Nat} {span : Span} {a : Exec α} (ha : Level X b I a) :
    Level X b I (checkDepth limit span >>= fun _ => a) := by
  cases limit with
  | none => exact ha
  | some n =>
    have hrun (m : Machine) : (checkDepth (some n) span >>= fun _ => a) m =
        if n ≤ m.depth then (.error (.error (.raised (.recursionLimit n) span)), m) else a m := by
      show ((if n ≤ m.depth then raise (.recursionLimit n) span else pure () : Exec Unit) >>= fun _ => a) m = _
      split
      · rfl
      · rfl
    rintro m _ ⟨held, rfl, h⟩ hm hm'
    rw [hrun, hrun]
    dsimp only
    split
    · exact ⟨rfl, held, rfl, h⟩
    · exact ha m _ ⟨held, rfl, h⟩ hm hm'

theorem level_inFrame (hg : Ground P K I X b) {hs : List Value} {a : Handle} (ha : .obj a ∈ hs) (hP : P (.obj a))
    (params : List String) {args : List Value} (hargs : ∀ v ∈ args, P v) {act : Exec Value}
    (hact : Level X b (I hs) act) : Level X b (I hs) (inFrame (.frame a.id params args) act) := by
  rintro m _ ⟨held, rfl, h⟩ hm hm'
  have henter := hg.enter params hm ha hP hargs
  have henter' := hg.enter params hm' ha hP hargs
  obtain ⟨hsame, held', hn, h'⟩ := hact _ _ (by exact ⟨held, rfl, h⟩) henter henter'
  refine ⟨hsame, held', ?_, h'⟩
  exact congrArg (fun n => { n with scope := m.scope, callers := m.callers, depth := n.depth - 1 }) hn

theorem level_callMethod (hg : Ground P K I X b) {limit : Option Nat} {e : Node → Exec Value} {hs : List Value}
    (he : ∀ node, Level X b (I hs) (e node)) {a : Handle} (ha : .obj a ∈ hs) (hP : P (.obj a)) (name : String)
    {args : List Value} (hargs : ∀ v ∈ args, P v) (span : Span) :
    Level X b (I hs) (callMethod limit e a.id name args span) := by
  rintro m _ ⟨held, rfl, h⟩ hm hm'
  rw [callMethod_apply, callMethod_apply]
  -- the method is looked up on the heap, which is the same on both sides
  refine level_traced (fun _ ev hI => hg.told ev hI) _ ?_ m _ ⟨held, rfl, h⟩ hm hm'
  cases m.target? a.id name args with
  | none => exact fun _ _ hb _ _ => ⟨rfl, hb⟩
  | some method =>
    exact level_checked (hg.level_inFrame ha hP method.params hargs (level_ended (closed_apply _) (he method.body)))

/-- What a logic of actions says of steps of execution, and of what they are made of, is level ground. -/
theorem level (hg : Ground P K I X b) {limit : Option Nat}
    (hp : ∀ n hs, Pieces P (fun _ => True) K hs (callMethod limit (exec limit n)) (callMethod limit (exec limit n))
      (exec limit n) (exec limit n) (text limit n) (text limit n)) (n : Nat) :
    ∀ hs, (∀ node, Level X b (I hs) (exec limit n node)) ∧
      ∀ span v, P v → Level X b (I hs) (text limit n span v) := by
  induction n with
  | zero => exact fun _ => ⟨fun _ _ _ hb _ _ => ⟨rfl, hb⟩, fun _ _ _ _ _ hb _ _ => ⟨rfl, hb⟩⟩
  | succ n ih =>
    intro hs
    have hpieces : Pieces P (fun _ => True) (fun hs Q a c => K hs Q a c ∧ Level X b (I hs) a) hs
        (callMethod limit (exec limit n)) (callMethod limit (exec limit n)) (exec limit n) (exec limit n)
        (text limit n) (text limit n) :=
      { call := fun a name args span ha ho hargs => ⟨(hp n hs).call a name args span ha ho hargs,
          hg.level_callMethod (ih (.obj a :: hs)).1 List.mem_cons_self ha name hargs span⟩
        node := fun node hnode => ⟨(hp n hs).node node hnode, (ih hs).1 node⟩
        text := fun span v hv => ⟨(hp n hs).text span v hv, (ih hs).2 span v hv⟩ }
    refine ⟨fun node => ?_, fun span v hv => (hpieces.textOver hg.level_logic.toRules span hv).2⟩
    refine (hpieces.execOver hg.level_logic (fun _ _ => trivial) (fun _ _ _ _ _ => trivial) ?_).2
    exact fun s body _ hbody => ⟨hg.returned hbody.1, level_ended (returned_apply _) hbody.2⟩

/-- A value may be let go of that owns nothing of what `X` says but what is owned anyway. -/
theorem holding_exec (hg : Ground P K I X b) {limit : Option Nat}
    (hp : ∀ n hs, Pieces P (fun _ => True) K hs (callMethod limit (exec limit n)) (callMethod limit (exec limit n))
      (exec limit n) (exec limit n) (text limit n) (text limit n)) (n : Nat) (node : Node) {v : Value}
    (howned : ∀ e ∈ v.owned, X e → b.Retains e) (hI : I [] b) (hI' : I [] { b with held := v :: b.held }) :
    holding v (exec limit n node) b = exec limit n node b := by
  obtain ⟨hsame, held, hn, -⟩ := (hg.level hp n []).1 node _ _ (Machine.Beside.held howned) hI hI'
  rw [holding_apply, hn, ← hsame]
  rcases hr : exec limit n node b with ⟨r, m'⟩
  rw [← exec_held hr]

end Ground

variable {limit : Option Nat} {m : Machine} {v : Value}

theorem ground_only (b : Machine) :
    Ground (fun _ => True) (fun _ Q a _ => Only (fun _ _ => True) Q a) (fun _ _ => True) (fun _ => True) b where
  logic := Only.logic _
  returned _ := Only.returned _
  sound {_ _ _ a _ m} h _ := by
    refine ⟨fun x hx => ?_, trivial⟩
    have hm := h m
    rw [hx] at hm
    exact hm
  mono _ _ := trivial
  hold _ _ := trivial
  told _ _ := trivial
  enter _ _ _ _ _ := trivial
  seen {_ m m'} hb _ _ := by
    have hroots := fun e => hb.mem_roots (e := e) trivial
    obtain ⟨held, rfl, -⟩ := hb
    have hlive : m.live = ({ m with held := held } : Machine).live := Machine.live_congr ⟨rfl, rfl⟩ hroots
    have hagree : m.Agree { m with held := held } := ⟨rfl, rfl, rfl, rfl, hlive, fun _ _ => rfl⟩
    exact ⟨⟨rfl, fun c => congrFun hlive _, fun o _ => congrFun hlive _⟩, hagree.read⟩

/-- A value may be let go of if all that it owns is owned by values in use or classes at hand. -/
theorem holding_exec_of_retained (h : ∀ e ∈ v.owned, m.Retains e) (n : Nat) (node : Node) :
    holding v (exec limit n node) m = exec limit n node m := by
  refine (ground_only m).holding_exec (fun n hs => ?_) n node (fun e he _ => h e he) trivial trivial
  exact ⟨fun a name args span _ _ _ => .callMethod limit _ a.id name args span, fun _ _ _ => .of_true _,
    fun _ _ _ _ => .of_true _⟩

/-- A value that owns nothing may be let go of. -/
theorem holding_exec_of_plain {v : Value} (hv : v.owned = []) (limit : Option Nat) (n : Nat) (x : Node) :
    holding v (exec limit n x) = exec limit n x := by
  refine funext fun m => holding_exec_of_retained (fun e he => ?_) n x
  rw [hv] at he
  exact absurd he List.not_mem_nil

theorem ground_keeps {b : Machine} (hclasses : ∀ d ∈ b.heap.classes, d.id ∈ b.pinned) :
    Ground Value.Owning Keeps (fun hs m => m.Tidy ∧ ∀ v ∈ hs, v ∈ m.held) Entity.IsClass b where
  logic := Keeps.logic
  returned := Keeps.returned
  sound {_ hs Q a c m} h := by
    rintro ⟨hm, hheld⟩
    obtain ⟨heq, hfine, hpass⟩ := h m hm hheld
    rw [heq]
    refine ⟨fun x hx => ?_, hpass.tidy, ?_⟩
    · rw [hx] at hfine
      exact hfine
    · rw [hpass.held]
      exact hheld
  mono h hj := ⟨h.1, fun v hv => h.2 v (hj v hv)⟩
  hold h hv := ⟨h.1.hold hv, fun u hu => by
    rcases List.mem_cons.1 hu with rfl | hu
    · exact List.mem_cons_self
    · exact List.mem_cons_of_mem _ (h.2 u hu)⟩
  told e h := ⟨⟨h.1.scopes, h.1.globals, h.1.held, h.1.fields⟩, h.2⟩
  enter {_ a args m} params h ha hP hargs := by
    cases a with
    | owned o => exact ⟨h.1.enter (h.2 _ ha) params hargs, h.2⟩
    | shared o => exact absurd rfl (hP o)
  seen {_ m m'} hb h h' := by
    have hroots := fun c => hb.mem_roots ⟨c, rfl⟩
    obtain ⟨held, rfl, hpinned, hsame, -⟩ := hb
    have hm : ∀ d ∈ m.heap.classes, d.id ∈ m.pinned := hpinned ▸ hsame ▸ hclasses
    refine ⟨⟨rfl, fun c => ?_, fun o ho => absurd rfl (ho o)⟩, fun path => h.1.read_congr h'.1 rfl rfl path⟩
    have hm' : ∀ d ∈ ({ m with held := held } : Machine).heap.classes, d.id ∈ m.pinned := hm
    exact Bool.eq_iff_iff.2 ((Machine.live_cls_iff hm).trans ((hroots c).trans (Machine.live_cls_iff hm').symm))

/-- Whatever runs keeps handles where they belong. -/
theorem Parts.exec (limit : Option Nat) (n : Nat) (hs : List Value) :
    Parts hs (callMethod limit (exec limit n)) (callMethod limit (exec limit n)) (Exec.exec limit n)
      (Exec.exec limit n) (Exec.text limit n) (Exec.text limit n) := by
  obtain ⟨hnode, htext⟩ := (handleWatch_sure limit).keeps .exhausted n
  have hexec (node : Node) (js : List Value) :
      Keeps js Value.Owning (Exec.exec limit n node) (Exec.exec limit n node) :=
    (hnode node).run.mono (List.forall_mem_nil _) fun _ hv => hv
  exact ⟨fun o name args span hargs => .callMethod (hexec · _) List.mem_cons_self hargs name span, (hexec · _),
    fun span v hv => (htext span v hv).run.mono (List.forall_mem_nil _) fun _ hx => hx⟩

/-- A settled machine stays so, and what it ends with owns its object. -/
theorem settled_exec (hm : m.Settled) (limit : Option Nat) (n : Nat) (node : Node) :
    (exec limit n node m).2.Settled ∧ (exec limit n node m).2.pinned = m.pinned ∧
      Fine Value.Owning (exec limit n node m).1 := by
  obtain ⟨-, hfine, hpass⟩ := (Parts.exec limit n []).node node m hm.tidy (List.forall_mem_nil _)
  have hextends := ((Machine.Extends.invariant m).exec limit n node trivial (.refl m)).1
  refine ⟨⟨hpass.tidy, fun d hd => ?_⟩, hextends.pinned, hfine⟩
  rw [hextends.classes] at hd
  rw [hextends.pinned]
  exact hm.atHand d hd

/-- A value that need not be held may be let go of. -/
theorem holding_exec_of_spares (h : m.Spares v) (n : Nat) (node : Node) :
    holding v (exec limit n node) m = exec limit n node m := by
  rcases h with howned | ⟨hm, hv, hcls⟩
  · exact holding_exec_of_retained howned n node
  refine (ground_keeps hm.atHand).holding_exec (fun n hs => (Parts.exec limit n hs).pieces) n node ?_
    ⟨hm.tidy, List.forall_mem_nil _⟩ ⟨hm.tidy.hold hv, List.forall_mem_nil _⟩
  rintro _ he ⟨c, rfl⟩
  cases v with
  | cls d =>
    obtain rfl : c = d := Entity.cls.inj (List.mem_singleton.1 he)
    exact hcls c rfl
  | obj a => cases a with
    | owned o => exact absurd (List.mem_singleton.1 he) nofun
    | shared o => exact absurd he List.not_mem_nil
  | _ => exact absurd he List.not_mem_nil

end Exec

end ClassScript

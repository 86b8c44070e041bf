import ClassScript.Proofs.Returns

/-!
# What a node comes to

Carrying out a node comes to a node below it through blocks and conditionals (`Reaches`), and what the
latter ends with, if it is a signal, ends the former at once: nothing else is carried out, and but for
what is held the machine is left as it is (`Reaches.exec_eq_error`).  In a regular tree this is the only
way for a `return` (`exists_returns`).  In other trees it may come up in any part of a node, and still all
nodes let it pass but the bodies of methods (`Passes.exec_eq`).
-/

namespace ClassScript.Exec

variable {α β : Type}

/-! ### Values held -/

/-- An action behind which as much is held as before. -/
def Steady (a : Exec α) : Prop := ∀ m, (a m).2.held = m.held

theorem Steady.bind {a : Exec α} {f : α → Exec β} (h : Steady a) (hf : ∀ x, Steady (f x)) :
    Steady (a >>= f) := by
  intro m
  have ha := h m
  rw [bind_apply]
  rcases hr : a m with ⟨s | x, m'⟩
  · rw [hr] at ha
    exact ha
  · rw [hr] at ha
    exact (hf x m').trans ha

theorem Steady.congruence : Congruence fun _ a _ => Steady a where
  pure _ _ := rfl
  raise _ _ _ := rfl
  ret _ _ _ := rfl
  bind := .bind
  read _ := rfl
  holding _ _ _ := rfl
  traced e h m := h { m with trace := m.trace.push e }
  returned h m := by rw [returned_apply, h]
  write text m := by rw [write_apply]
  tell _ _ := rfl
  create _ _ _ := rfl
  setName _ _ _ := rfl
  setField _ _ _ _ := rfl

theorem steady_callMethod {limit : Option Nat} {e : Node → Exec Value} (he : ∀ n, Steady (e n))
    (o : ObjId) (name : String) (args : List Value) (span : Span) :
    Steady (callMethod limit e o name args span) := by
  intro m
  rcases callMethod_cases limit e o name args span m with ⟨method, -, hcall⟩ | ⟨_, _, hcall⟩
  · rw [hcall]
    exact he method.body (m.inBody o name args method)
  · rw [hcall]

/-- What steps of a run are made of leaves as much held as before. -/
theorem steady_related (limit : Option Nat) (n : Nat) :
    Related (fun _ a _ => Steady a) (callMethod limit (exec limit n)) (callMethod limit (exec limit n))
      (exec limit n) (exec limit n) (text limit n) (text limit n) := by
  induction n with
  | zero => exact ⟨steady_callMethod fun _ _ => rfl, fun _ _ => rfl, fun _ _ _ => rfl⟩
  | succ n ih =>
    have hnode : ∀ node, Steady (exec limit (n + 1) node) := Steady.congruence.execOver ih
    exact ⟨steady_callMethod hnode, hnode, Steady.congruence.textOver ih⟩

theorem exec_held {limit : Option Nat} {n : Nat} {node : Node} {r : Except Signal Value} {m m' : Machine}
    (h : exec limit n node m = (r, m')) : m'.held = m.held := by
  have hm := (steady_related limit n).node node m
  rwa [h] at hm

theorem block_held {limit : Option Nat} {n : Nat} {last : Value} {body : List Node}
    {r : Except Signal Value} {m m' : Machine} (h : block (exec limit n) last body m = (r, m')) :
    m'.held = m.held := by
  have hm := Steady.congruence.block (steady_related limit n) last body m
  rwa [h] at hm

/-! ### Statements one after another -/

section

variable {e : Node → Exec Value} {last w : Value} {m m₁ m₂ m' : Machine} {s : Signal}

theorem block_append (e : Node → Exec Value) (last : Value) (front back : List Node) :
    block e last (front ++ back) = block e last front >>= fun v => block e v back := by
  induction front generalizing last with
  | nil =>
    show block e last back = pure last >>= fun v => block e v back
    rw [pure_bind]
  | cons c front ih => simp only [List.cons_append, block, ih, bind_assoc]

theorem block_cons_apply (e : Node → Exec Value) (last : Value) (c : Node) (rest : List Node) (m : Machine) :
    block e last (c :: rest) m =
      match e c { m with held := last :: m.held } with
      | (.ok v, m') => block e v rest { m' with held := m.held }
      | (.error s, m') => (.error s, { m' with held := m.held }) := by
  rw [block, bind_apply, holding_apply]
  rcases e c { m with held := last :: m.held } with ⟨s | v, m'⟩ <;> rfl

/-- A signal of a statement ends a block. -/
theorem block_eq_error {front back : List Node} {c : Node} (hfront : block e last front m = (.ok w, m₁))
    (hc : e c { m₁ with held := w :: m₁.held } = (.error s, m₂)) :
    block e last (front ++ c :: back) m = (.error s, { m₂ with held := m₁.held }) := by
  rw [block_append, bind_apply, hfront]
  dsimp only
  rw [block_cons_apply, hc]

/-- A block that ends with a signal has come to a statement that does. -/
theorem exists_of_block_eq_error {body : List Node} (h : block e last body m = (.error s, m')) :
    ∃ front c back w m₁ m₂, body = front ++ c :: back ∧ block e last front m = (.ok w, m₁) ∧
      e c { m₁ with held := w :: m₁.held } = (.error s, m₂) ∧ m' = { m₂ with held := m₁.held } := by
  induction body generalizing last m with
  | nil => cases h
  | cons c rest ih =>
    rw [block_cons_apply] at h
    rcases hc : e c { m with held := last :: m.held } with ⟨s' | v, m₁⟩
    · rw [hc] at h
      cases h
      exact ⟨[], c, rest, last, m, m₁, rfl, rfl, hc, rfl⟩
    · rw [hc] at h
      obtain ⟨front, c', back, w, m₂, m₃, rfl, hfront, hc', rfl⟩ := ih h
      refine ⟨c :: front, c', back, w, m₂, m₃, rfl, ?_, hc', rfl⟩
      rw [block_cons_apply, hc]
      exact hfront

end

/-! ### Ways through a tree -/

/-- Carrying out a node with so much fuel in such a machine comes to the node `r`, with fuel for `k` steps
in the machine `m'`.  Statements before those on the way have ended, and the conditions hold or do not. -/
inductive Reaches (limit : Option Nat) (k : Nat) (r : Node) (m' : Machine) : Nat → Node → Machine → Prop
  | here : Reaches limit k r m' k r m'
  | block {n : Nat} {s : Span} {front back : List Node} {c : Node} {w : Value} {m m₁ : Machine}
      (hfront : block (exec limit n) .none front m = (.ok w, m₁))
      (h : Reaches limit k r m' n c { m₁ with held := w :: m₁.held }) :
      Reaches limit k r m' (n + 1) (.block s (front ++ c :: back)) m
  | yes {n : Nat} {s : Span} {cond c : Node} {no : Option Node} {v : Value} {m m₁ : Machine}
      (hcond : exec limit n cond m = (.ok v, m₁)) (hv : v.truthy = true)
      (h : Reaches limit k r m' n c { m₁ with held := v :: m₁.held }) :
      Reaches limit k r m' (n + 1) (.ifElse s cond c no) m
  | no {n : Nat} {s : Span} {cond yes c : Node} {v : Value} {m m₁ : Machine}
      (hcond : exec limit n cond m = (.ok v, m₁)) (hv : v.truthy = false)
      (h : Reaches limit k r m' n c { m₁ with held := v :: m₁.held }) :
      Reaches limit k r m' (n + 1) (.ifElse s cond yes (some c)) m

section

variable {limit : Option Nat} {k n : Nat} {r node : Node} {m m₁ m₂ m' : Machine}

/-- The way leads into no body of a method. -/
theorem Reaches.outside (h : Reaches limit k r m₁ n node m) : node.Outside r := by
  induction h with
  | here => exact .self _
  | block _ _ ih => exact .part (by rintro ⟨_, _, ⟨⟩⟩) (List.mem_append_right _ List.mem_cons_self) ih
  | yes _ _ _ ih => exact .part (by rintro ⟨_, _, ⟨⟩⟩) (List.mem_cons_of_mem _ List.mem_cons_self) ih
  | no _ _ _ ih =>
    refine .part (by rintro ⟨_, _, ⟨⟩⟩) ?_ ih
    exact List.mem_cons_of_mem _ (List.mem_cons_of_mem _ List.mem_cons_self)

/-- A conditional goes on with the branch that its condition chooses, while this is held. -/
theorem exec_ifElse_apply {s : Span} {cond yes : Node} {no : Option Node} {v : Value}
    (hcond : exec limit n cond m = (.ok v, m₁)) :
    exec limit (n + 1) (.ifElse s cond yes no) m =
      holding v (if v.truthy then exec limit n yes else match no with
        | some c => exec limit n c
        | none => return .none) m₁ := by
  show (exec limit n cond >>= fun v => holding v (if v.truthy then exec limit n yes else match no with
    | some c => exec limit n c
    | none => return .none)) m = _
  rw [bind_apply, hcond]

/-- A signal at the end of the way is the end of it all. -/
theorem Reaches.exec_eq_error (h : Reaches limit k r m₁ n node m) {s : Signal}
    (hr : exec limit k r m₁ = (.error s, m₂)) :
    exec limit n node m = (.error s, { m₂ with held := m.held }) := by
  induction h with
  | here => rw [hr, ← exec_held hr]
  | block hfront _ ih =>
    rw [← block_held hfront]
    exact (block_eq_error hfront ih :)
  | yes hcond hv _ ih => rw [exec_ifElse_apply hcond, if_pos hv, holding_apply, ih, exec_held hcond]
  | no hcond hv _ ih =>
    rw [exec_ifElse_apply hcond, if_neg (by simp [hv]), holding_apply]
    dsimp only
    rw [ih, exec_held hcond]

/-! ### Returns -/

/-- Carrying out `node` comes to a `return`, whose value is found to be `v`.  Nothing else is done: the
machine is as it is left where the value is found, and only what has been in use is let go of. -/
def Returns (limit : Option Nat) (n : Nat) (node : Node) (m : Machine) (span : Span) (value : Node)
    (v : Value) (m' : Machine) : Prop :=
  ∃ k m₁ m₂, Reaches limit (k + 1) (.ret span value) m₁ n node m ∧
    exec limit k value m₁ = (.ok v, m₂) ∧ m' = { m₂ with held := m.held }

variable {span : Span} {value : Node} {v : Value}

theorem exec_ret_apply (hvalue : exec limit k value m = (.ok v, m')) :
    exec limit (k + 1) (.ret span value) m = (.error (.returning v span), m') := by
  show (exec limit k value >>= fun v => throw (.returning v span)) m = _
  rw [bind_apply, hvalue]
  rfl

/-- A `return` that is come to ends it all. -/
theorem Returns.exec_eq (h : Returns limit n node m span value v m') :
    exec limit n node m = (.error (.returning v span), m') := by
  obtain ⟨k, m₁, m₂, hreach, hvalue, rfl⟩ := h
  exact hreach.exec_eq_error (exec_ret_apply hvalue)

theorem Returns.outside (h : Returns limit n node m span value v m') : node.Outside (.ret span value) := by
  obtain ⟨k, m₁, m₂, hreach, -, -⟩ := h
  exact hreach.outside

/-- What a statement returns, a block returns that comes to it. -/
theorem Returns.block {s : Span} {front back : List Node} {w : Value}
    (hfront : Exec.block (exec limit n) .none front m = (.ok w, m₁))
    (h : Returns limit n node { m₁ with held := w :: m₁.held } span value v m₂) :
    Returns limit (n + 1) (.block s (front ++ node :: back)) m span value v { m₂ with held := m₁.held } := by
  obtain ⟨k, m₃, m₄, hreach, hvalue, rfl⟩ := h
  rw [block_held hfront]
  exact ⟨k, m₃, m₄, .block hfront hreach, hvalue, rfl⟩

/-- What a branch returns, a conditional returns that chooses it. -/
theorem Returns.branch {s : Span} {cond yes : Node} {no : Option Node} {c : Value}
    (hcond : exec limit n cond m = (.ok c, m₁))
    (hnode : c.truthy = true ∧ yes = node ∨ c.truthy = false ∧ no = node)
    (h : Returns limit n node { m₁ with held := c :: m₁.held } span value v m₂) :
    Returns limit (n + 1) (.ifElse s cond yes no) m span value v { m₂ with held := m₁.held } := by
  obtain ⟨k, m₃, m₄, hreach, hvalue, rfl⟩ := h
  rw [exec_held hcond]
  rcases hnode with ⟨hc, rfl⟩ | ⟨hc, rfl⟩
  · exact ⟨k, m₃, m₄, .yes hcond hc hreach, hvalue, rfl⟩
  · exact ⟨k, m₃, m₄, .no hcond hc hreach, hvalue, rfl⟩

/-- An action behind one that never returns does so if they both do. -/
theorem Returnless.exists_of_bind {α β : Type} {a : Exec α} {f : α → Exec β} (ha : Returnless a)
    (h : (a >>= f) m = (.error (.returning v span), m')) :
    ∃ x m₁, a m = (.ok x, m₁) ∧ f x m₁ = (.error (.returning v span), m') := by
  rw [bind_apply] at h
  have hm := ha m v span
  rcases hr : a m with ⟨s | x, m₁⟩
  · rw [hr] at h hm
    cases h
    exact absurd rfl hm
  · rw [hr] at h
    exact ⟨x, m₁, rfl, h⟩

/-- In a regular tree, whatever ends with a `return` has come to one through blocks and conditionals. -/
theorem exists_returns (hnode : node.Regular) (h : exec limit n node m = (.error (.returning v span), m')) :
    ∃ value, Returns limit n node m span value v m' := by
  induction n generalizing node m m' with
  | zero => cases h
  | succ n ih =>
    have hoperands : ∀ c ∈ node.operands, Returnless (exec limit n c) :=
      fun c hc => returnless_of_isExpression (hnode.self.operands c hc) limit n
    have hends : ¬ Returnless (exec limit (n + 1) node) := by
      intro hnone
      have hm := hnone m v span
      rw [h] at hm
      exact hm rfl
    cases node with
    | ret s value =>
      obtain ⟨w, m₁, hvalue, hm⟩ := (hoperands value List.mem_cons_self).exists_of_bind h
      cases hm
      refine ⟨value, n, m, m', .here, hvalue, ?_⟩
      rw [← exec_held hvalue]
    | block s body =>
      obtain ⟨front, c, back, w, m₁, m₂, rfl, hfront, hc, rfl⟩ := exists_of_block_eq_error h
      obtain ⟨value, hreturns⟩ := ih (hnode.child (List.mem_append_right _ List.mem_cons_self)) hc
      exact ⟨value, hreturns.block hfront⟩
    | ifElse s cond yes no =>
      obtain ⟨c, m₁, hcond, -⟩ := (hoperands cond List.mem_cons_self).exists_of_bind h
      rw [exec_ifElse_apply hcond, holding_apply] at h
      have hyes : yes.Regular := hnode.child (List.mem_cons_of_mem _ List.mem_cons_self)
      split at h
      · rename_i hc
        obtain ⟨hr, rfl⟩ := Prod.mk.inj h
        obtain ⟨value, hreturns⟩ := ih hyes (Prod.ext hr rfl)
        exact ⟨value, hreturns.branch hcond (.inl ⟨hc, rfl⟩)⟩
      · rename_i hc
        cases no with
        | none => cases h
        | some no =>
          have hno : no.Regular :=
            hnode.child (List.mem_cons_of_mem _ (List.mem_cons_of_mem _ List.mem_cons_self))
          obtain ⟨hr, rfl⟩ := Prod.mk.inj h
          obtain ⟨value, hreturns⟩ := ih hno (Prod.ext hr rfl)
          exact ⟨value, hreturns.branch hcond (.inr ⟨by simpa using hc, rfl⟩)⟩
    | methodBody s body => exact (hends (returnless_of_isBody ⟨s, body, rfl⟩ limit (n + 1))).elim
    | classDef s d => exact (hends (returnless_exec_succ nofun nofun)).elim
    | _ => exact (hends (returnless_exec_succ hoperands nofun)).elim

end

/-! ### Ways through any tree -/

/-- Carries out nodes as `exec` does, but stops where `c` is to be carried out in the machine `m'`. -/
noncomputable def haltAt (limit : Option Nat) (n : Nat) (c : Node) (m' : Machine) (stop : Signal) :
    Node → Exec Value := fun d m =>
  open Classical in if d = c ∧ m = m' then (.error stop, m) else exec limit n d m

/-- A step of a node carries out `c` in the machine `m'`: it would end otherwise if it stopped there. -/
def Visits (limit : Option Nat) (n : Nat) (node : Node) (m : Machine) (c : Node) (m' : Machine) : Prop :=
  ∃ stop, execOver (callMethod limit (exec limit n)) (haltAt limit n c m' stop) (text limit n) node m ≠
    exec limit (n + 1) node m

/-- Carrying out a node comes to the node `r`, from one part to the next, and leads into no body of a
method. -/
inductive Passes (limit : Option Nat) (k : Nat) (r : Node) (m' : Machine) : Nat → Node → Machine → Prop
  | here : Passes limit k r m' k r m'
  | part {n : Nat} {node c : Node} {m m₁ : Machine} (hbody : ¬ node.IsBody)
      (hvisit : Visits limit n node m c m₁) (h : Passes limit k r m' n c m₁) :
      Passes limit k r m' (n + 1) node m

section

variable {limit : Option Nat} {k n : Nat} {r node c : Node} {m m₁ m₂ m' : Machine} {v : Value}
  {span : Span}

/-- Actions that do the same, unless `b` comes to such a `return` and lets it pass. -/
def Heeds (v : Value) (span : Span) (m₂ : Machine) (Q : α → Prop) (a b : Exec α) : Prop :=
  Only (fun _ _ => True) Q b ∧
    ∀ m, a m = b m ∨ ∃ held, b m = (.error (.returning v span), { m₂ with held := held })

namespace Heeds

variable {Q Q' : α → Prop} {a b : Exec α}

theorem refl (h : Only (fun _ _ => True) Q a) : Heeds v span m₂ Q a a := ⟨h, fun _ => .inl rfl⟩

theorem bind {f g : α → Exec β} {R : β → Prop} (h : Heeds v span m₂ Q a b)
    (hf : ∀ x, Q x → Heeds v span m₂ R (f x) (g x)) : Heeds v span m₂ R (a >>= f) (b >>= g) := by
  refine ⟨h.1.bind fun x hx => (hf x hx).1, fun m => ?_⟩
  have hb := h.1 m
  rw [bind_apply, bind_apply]
  rcases h.2 m with heq | ⟨held, hr⟩
  · rw [heq]
    rcases hr : b m with ⟨s | x, m'⟩
    · exact .inl rfl
    · rw [hr] at hb
      exact (hf x hb).2 m'
  · rw [hr]
    exact .inr ⟨held, rfl⟩

theorem holding (w : Value) (h : Heeds v span m₂ Q a b) :
    Heeds v span m₂ Q (holding w a) (holding w b) := by
  refine ⟨fun m => h.1 { m with held := w :: m.held }, fun m => ?_⟩
  rw [holding_apply, holding_apply]
  rcases h.2 { m with held := w :: m.held } with heq | ⟨held, hr⟩
  · rw [heq]
    exact .inl rfl
  · rw [hr]
    exact .inr ⟨m.held, rfl⟩

/-- To let a `return` pass is a logic of actions. -/
theorem logic (v : Value) (span : Span) (m₂ : Machine) :
    Logic (fun _ => True) (fun _ _ => True) fun _ Q a b => Heeds v span m₂ Q a b where
  plain _ _ := trivial
  cls _ := trivial
  mono h _ hQ := ⟨h.1.mono (fun _ _ hT => hT) hQ, h.2⟩
  pure hx := .refl fun _ => hx
  raise _ _ := .refl fun _ => trivial
  ret _ _ := .refl fun _ => trivial
  bind := .bind
  read _ _ h := ⟨fun m => (h m).1 m, fun m => (h m).2 m⟩
  holding _ h := h.holding _
  object {_ a} span _ := .refl ((Only.object a span).mono (fun _ _ hT => hT) fun _ ho => ⟨ho, trivial⟩)
  readPath _ _ := .refl fun _ => .of_true _
  write _ := .refl fun _ => .of_true _
  tell _ := .refl fun _ => trivial
  create _ _ := .refl fun _ => trivial
  setName _ _ _ := .refl fun _ => trivial
  setField _ _ _ _ := .refl fun _ => trivial

end Heeds

/-- No node but the body of a method keeps a `return` of a part to itself. -/
theorem Visits.exec_eq (hvisit : Visits limit n node m c m₁) (hbody : ¬ node.IsBody)
    (hc : exec limit n c m₁ = (.error (.returning v span), m₂)) :
    exec limit (n + 1) node m = (.error (.returning v span), { m₂ with held := m.held }) := by
  obtain ⟨stop, hstop⟩ := hvisit
  have hp : Pieces (fun _ => True) (fun _ => True) (fun _ Q a b => Heeds v span m₂ Q a b) []
      (callMethod limit (exec limit n)) (callMethod limit (exec limit n)) (haltAt limit n c m₁ stop)
      (exec limit n) (text limit n) (text limit n) := by
    refine ⟨fun a name args span _ _ _ => .refl (.callMethod limit _ a.id name args span), ?_,
      fun span v _ => .refl (.text limit n span v)⟩
    refine fun d _ => ⟨fun _ => .of_true _, fun m => ?_⟩
    unfold haltAt
    split
    · rename_i hd
      obtain ⟨rfl, rfl⟩ := hd
      exact .inr ⟨m₂.held, hc⟩
    · exact .inl rfl
  have hstep := hp.execOver (Heeds.logic v span m₂) (fun _ _ => trivial) (fun _ _ _ _ _ => trivial)
    fun s b (hb : node = _) => absurd ⟨s, b, hb⟩ hbody
  rcases hstep.2 m with heq | ⟨held, hr⟩
  · exact absurd heq hstop
  · change exec limit (n + 1) node m = _ at hr
    rw [hr, ← exec_held hr]

/-- A `return` that comes up without a body of a method on its way ends it all. -/
theorem Passes.exec_eq (h : Passes limit k r m₁ n node m)
    (hr : exec limit k r m₁ = (.error (.returning v span), m₂)) :
    exec limit n node m = (.error (.returning v span), { m₂ with held := m.held }) := by
  induction h with
  | here => rw [hr, ← exec_held hr]
  | part hbody hvisit _ ih => exact (hvisit.exec_eq hbody ih :)

/-- Carrying out `node` comes to a `return`, through no body of a method, whose value is found to be `v`. -/
def Escapes (limit : Option Nat) (n : Nat) (node : Node) (m : Machine) (span : Span) (value : Node)
    (v : Value) (m' : Machine) : Prop :=
  ∃ k m₁ m₂, Passes limit (k + 1) (.ret span value) m₁ n node m ∧
    exec limit k value m₁ = (.ok v, m₂) ∧ m' = { m₂ with held := m.held }

theorem Escapes.exec_eq {value : Node} (h : Escapes limit n node m span value v m') :
    exec limit n node m = (.error (.returning v span), m') := by
  obtain ⟨k, m₁, m₂, hpass, hvalue, rfl⟩ := h
  exact hpass.exec_eq (exec_ret_apply hvalue)

end

end ClassScript.Exec

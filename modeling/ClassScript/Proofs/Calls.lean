import ClassScript.Run.Congruence

/-!
# What becomes of a call

A method that is found and may be run is run in a frame of its own, and the machine of whoever calls is
taken up again behind it (`callMethod_of_found`).  A call that comes to no body leaves all but the trace as
it was.  The text of a value is either found at once or left to such a call (`textOver_cases`).
-/

namespace ClassScript

namespace Machine

/-- The machine behind an event. -/
def told (m : Machine) (e : Event) : Machine := { m with trace := m.trace.push e }

/-- The machine that the body of a method starts with. -/
def inBody (m : Machine) (o : ObjId) (name : String) (args : List Value) (method : Method) : Machine :=
  { m.told (.enter (m.heap.classOf o).name name args.length) with
    scope := .frame o method.params args, callers := m.scope :: m.callers, depth := m.depth + 1 }

/-- The machine behind a call, where `m` is the one before it and `m'` the one that its body ends
with. -/
def behind (m m' : Machine) : Machine :=
  { m'.told .leave with scope := m.scope, callers := m.callers, depth := m'.depth - 1 }

/-- The method that a call comes to. -/
def target? (m : Machine) (o : ObjId) (name : String) (args : List Value) : Option Method :=
  m.heap.findMethod? (m.heap.classOf o) name args.length

end Machine

namespace Exec

/-- What comes of a body in which a `return` is left over. -/
def atCall : Except Signal Value → Except Signal Value
  | .error (.returning _ span) => .error (.error (.raised .returnOutsideMethod span))
  | r => r

/-- What comes of a body where a `return` ends. -/
def atBody : Except Signal Value → Except Signal Value
  | .ok _ => .ok .none
  | .error (.returning v _) => .ok v
  | r => r

theorem closed_apply (act : Exec Value) (m : Machine) :
    closed act m = (atCall (act m).1, (act m).2) := by
  rw [closed, tryCatch_apply]
  rcases act m with ⟨s | v, m'⟩
  · cases s <;> rfl
  · rfl

theorem returned_apply (act : Exec Value) (m : Machine) :
    returned act m = (atBody (act m).1, (act m).2) := by
  rw [returned, tryCatch_apply, bind_apply]
  rcases act m with ⟨s | v, m'⟩
  · cases s <;> rfl
  · rfl

theorem holding_apply {α : Type} (v : Value) (act : Exec α) (m : Machine) :
    holding v act m = ((act { m with held := v :: m.held }).1,
      { (act { m with held := v :: m.held }).2 with held := m.held }) := rfl

/-- An action that never ends with a `return`. -/
def Returnless {α : Type} (a : Exec α) : Prop := ∀ m v span, (a m).1 ≠ .error (.returning v span)

theorem returnless_of_isBody {node : Node} (h : node.IsBody) (limit : Option Nat) (n : Nat) :
    Returnless (exec limit n node) := by
  obtain ⟨s, body, rfl⟩ := h
  cases n with
  | zero => exact fun _ _ _ => nofun
  | succ n =>
    intro m v span
    show (returned (exec limit n body) m).1 ≠ _
    rw [returned_apply]
    rcases (exec limit n body m).1 with s | w
    · cases s <;> exact nofun
    · exact nofun

variable {limit : Option Nat} {e : Node → Exec Value} {o : ObjId} {name : String}
  {args : List Value} {span : Span} {m : Machine} {method : Method}

theorem traced_apply {α : Type} (ev : Event) (act : Exec α) (m : Machine) :
    traced ev act m = ((act (m.told ev)).1, (act (m.told ev)).2.told .leave) := rfl

/-- A call is told of, and then it looks for its method. -/
theorem callMethod_apply (limit : Option Nat) (e : Node → Exec Value) (o : ObjId) (name : String)
    (args : List Value) (span : Span) (m : Machine) :
    callMethod limit e o name args span m =
      traced (.enter (m.heap.classOf o).name name args.length)
        (match m.target? o name args with
          | none => raise (.methodNotFound (m.heap.classOf o).name name args.length) span
          | some method =>
            checkDepth limit span >>= fun _ => inFrame (.frame o method.params args) (closed (e method.body)))
        m :=
  rfl

/-- A call that is not too deep passes the check of its depth. -/
theorem checkDepth_of_lt (hd : ∀ n ∈ limit, m.depth < n) (span : Span) :
    checkDepth limit span m = (.ok (), m) := by
  cases limit with
  | none => rfl
  | some n =>
    show (if n ≤ m.depth then raise (.recursionLimit n) span else (pure () : Exec Unit)) m = _
    rw [if_neg (Nat.not_le.2 (hd n rfl))]
    rfl

theorem checkDepth_of_not_lt (hd : ¬ ∀ n ∈ limit, m.depth < n) (span : Span) :
    ∃ e', checkDepth limit span m = (.error (.error e'), m) := by
  cases limit with
  | none => exact absurd (fun _ => nofun) hd
  | some n =>
    refine ⟨.raised (.recursionLimit n) span, ?_⟩
    show (if n ≤ m.depth then raise (.recursionLimit n) span else (pure () : Exec Unit)) m = _
    rw [if_pos]
    · rfl
    · refine Nat.le_of_not_lt fun hlt => hd ?_
      rintro k ⟨⟩
      exact hlt

/-- A method that is found is run in a frame of its own, unless it is called too deep. -/
theorem callMethod_of_found (hf : m.target? o name args = some method)
    (hd : ∀ n ∈ limit, m.depth < n) :
    callMethod limit e o name args span m =
      (atCall (e method.body (m.inBody o name args method)).1,
        m.behind (e method.body (m.inBody o name args method)).2) := by
  have hd' : ∀ n ∈ limit, (m.told (.enter (m.heap.classOf o).name name args.length)).depth < n := hd
  rw [callMethod_apply, hf, traced_apply]
  dsimp only
  rw [bind_apply, checkDepth_of_lt hd']
  dsimp only [inFrame]
  rw [closed_apply]
  rfl

/-- A call that is too deep comes to no body. -/
theorem callMethod_of_not_lt (hd : ¬ ∀ n ∈ limit, m.depth < n) :
    ∃ e' t, callMethod limit e o name args span m = (.error (.error e'), { m with trace := t }) := by
  rw [callMethod_apply, traced_apply]
  cases m.target? o name args with
  | none => exact ⟨_, _, rfl⟩
  | some method =>
    have hd' : ¬ ∀ n ∈ limit, (m.told (.enter (m.heap.classOf o).name name args.length)).depth < n := hd
    obtain ⟨e', he⟩ := checkDepth_of_not_lt hd' span
    dsimp only
    rw [bind_apply, he]
    exact ⟨e', _, rfl⟩

/-- A call comes to the body of its method, or else nothing but the trace is changed. -/
theorem callMethod_cases (limit : Option Nat) (e : Node → Exec Value) (o : ObjId) (name : String)
    (args : List Value) (span : Span) (m : Machine) :
    (∃ method, m.target? o name args = some method ∧ callMethod limit e o name args span m =
      (atCall (e method.body (m.inBody o name args method)).1,
        m.behind (e method.body (m.inBody o name args method)).2)) ∨
    ∃ e' t, callMethod limit e o name args span m = (.error (.error e'), { m with trace := t }) := by
  cases hf : m.target? o name args with
  | none =>
    right
    rw [callMethod_apply, hf]
    exact ⟨_, _, rfl⟩
  | some method =>
    by_cases hd : ∀ n ∈ limit, m.depth < n
    · exact .inl ⟨method, rfl, callMethod_of_found hf hd⟩
    · exact .inr (callMethod_of_not_lt hd)

/-! ### Texts -/

/-- An object with a method for its text is shown by what the method gives. -/
theorem textOver_of_method {a : Handle} {o : ObjId} {m : Machine} (ho : m.resolve a = some o)
    (hmethod : m.heap.hasMethod o strName 0 = true) (call : Call) (text : Span → Value → Exec String)
    (span : Span) :
    textOver call text span (.obj a) m =
      holding (.obj (.owned o)) (call o strName [] span >>= fun w => text span w) m := by
  rw [textOver, bind_apply, object_apply, ho]
  show (if m.heap.hasMethod o strName 0 = true then _ else _ : Exec String) m = _
  rw [hmethod, if_pos rfl]

/-- A text is either found at once or left to a method. -/
theorem textOver_cases (span : Span) (v : Value) (m : Machine) :
    (∃ r, r ≠ .error .exhausted ∧ ∀ call text, textOver call text span v m = (r, m)) ∨
    ∃ a o, v = .obj a ∧ m.resolve a = some o ∧ m.heap.hasMethod o strName 0 = true ∧
      ∀ call text, textOver call text span v m =
        holding (.obj (.owned o)) (call o strName [] span >>= fun w => text span w) m := by
  cases v with
  | obj a =>
    cases ho : m.resolve a with
    | none =>
      refine .inl ⟨.error (.error (.raised (.typeError .released) span)), nofun, fun call text => ?_⟩
      rw [textOver, bind_apply, object_apply, ho]
    | some o =>
      cases hmethod : m.heap.hasMethod o strName 0 with
      | true => exact .inr ⟨a, o, rfl, ho, hmethod, fun call text => textOver_of_method ho hmethod call text span⟩
      | false =>
        refine .inl ⟨.ok (m.heap.display m.live (.obj a)), nofun, fun call text => ?_⟩
        rw [textOver, bind_apply, object_apply, ho]
        show (if m.heap.hasMethod o strName 0 = true then _ else _ : Exec String) m = _
        rw [hmethod, if_neg Bool.false_ne_true]
        rfl
  | _ => exact .inl ⟨.ok (m.heap.display m.live _), nofun, fun _ _ => rfl⟩

end Exec

end ClassScript

import ClassScript.Proofs.Calls
import ClassScript.Proofs.TreeShape
import ClassScript.Run.Logic

/-!
# Where returns come from

A `return` on its way to the end of a method has started at a node that stands outside the bodies of
methods (`exists_outside_of_returning`), and none ever comes out of a call, of the body of a method or of
an expression (`returnless_of_isBody`, `returnless_of_isExpression`).
-/

namespace ClassScript

/-- A node that stands in a tree outside all bodies of methods. -/
inductive Node.Outside : Node → Node → Prop
  | self (n : Node) : Outside n n
  | part {n c m : Node} (hn : ¬ n.IsBody) (hc : c ∈ n.parts) (hm : Outside c m) : Outside n m

namespace Exec

variable {α β : Type} {T T' : Value → Span → Prop} {Q Q' : α → Prop}

/-- An end with a result as `Q` says, or a `return` as `T` says, or another signal. -/
def Yields (T : Value → Span → Prop) (Q : α → Prop) : Except Signal α → Prop
  | .ok x => Q x
  | .error (.returning v span) => T v span
  | .error _ => True

/-- An action that ends with results as `Q` says, and with returns as `T` says. -/
def Only (T : Value → Span → Prop) (Q : α → Prop) (a : Exec α) : Prop := ∀ m, Yields T Q (a m).1

theorem Yields.mono {r : Except Signal α} (h : Yields T Q r) (hT : ∀ v span, T v span → T' v span)
    (hQ : ∀ x, Q x → Q' x) : Yields T' Q' r := by
  match r, h with
  | .ok x, h => exact hQ x h
  | .error (.returning v span), h => exact hT v span h
  | .error (.error e), _ => trivial
  | .error .exhausted, _ => trivial

theorem Yields.of_true (r : Except Signal α) : Yields (fun _ _ => True) (fun _ => True) r := by
  rcases r with s | x
  · cases s <;> trivial
  · trivial

namespace Only

theorem mono {a : Exec α} (h : Only T Q a) (hT : ∀ v span, T v span → T' v span) (hQ : ∀ x, Q x → Q' x) :
    Only T' Q' a :=
  fun m => (h m).mono hT hQ

theorem bind {a : Exec α} {f : α → Exec β} {R : β → Prop} (h : Only T Q a)
    (hf : ∀ x, Q x → Only T R (f x)) : Only T R (a >>= f) := by
  intro m
  have ha := h m
  rw [bind_apply]
  rcases hr : a m with ⟨s | x, m'⟩
  · rw [hr] at ha
    cases s with
    | returning v span => exact ha
    | error e => trivial
    | exhausted => trivial
  · rw [hr] at ha
    exact hf x ha m'

/-- What comes of a call is no `return`. -/
theorem callMethod (limit : Option Nat) (e : Node → Exec Value) (o : ObjId) (name : String)
    (args : List Value) (span : Span) : Only T (fun _ => True) (callMethod limit e o name args span) := by
  intro m
  rcases callMethod_cases limit e o name args span m with ⟨method, -, hcall⟩ | ⟨e', t, hcall⟩
  · rw [hcall]
    rcases (e method.body (m.inBody o name args method)).1 with s | v
    · cases s <;> trivial
    · trivial
  · rw [hcall]
    trivial

/-- No `return` comes out of the body of a method. -/
theorem returned (a : Exec Value) : Only T (fun _ => True) (returned a) := by
  intro m
  rw [returned_apply]
  rcases (a m).1 with s | v
  · cases s <;> trivial
  · trivial

/-- The object of a handle is its own. -/
theorem object (a : Handle) (span : Span) : Only T (a.id = ·) (object a span) := by
  intro m
  have hid {o : ObjId} (ho : (Exec.object a span m).1 = .ok o) : a.id = o := id_of_object ho
  rw [object_apply] at hid ⊢
  cases hr : m.resolve a with
  | none => trivial
  | some o =>
    rw [hr] at hid
    exact hid rfl

/-- To return only so is a logic of actions. -/
theorem logic (T : Value → Span → Prop) : Logic (fun _ => True) T fun _ Q a _ => Only T Q a where
  plain _ _ := trivial
  cls _ := trivial
  mono h _ hQ := h.mono (fun _ _ hT => hT) hQ
  pure hx := fun _ => hx
  raise _ _ := fun _ => trivial
  ret _ hT := fun _ => hT
  bind := .bind
  read _ _ h := fun m => h m m
  holding _ h := fun m => h _
  object {_ a} span _ := (object a span).mono (fun _ _ hT => hT) fun _ ho => ⟨ho, trivial⟩
  readPath path span := by
    intro m
    rw [readPath_apply]
    cases m.read path <;> trivial
  write text := by
    intro m
    rw [write_apply]
    dsimp only
    split <;> trivial
  tell _ := fun _ => trivial
  create _ _ := fun _ => trivial
  setName _ _ _ := fun _ => trivial
  setField _ _ _ _ := fun _ => trivial

theorem text (limit : Option Nat) (n : Nat) (span : Span) (v : Value) :
    Only T (fun _ => True) (text limit n span v) := by
  induction n generalizing span v with
  | zero => exact fun _ => trivial
  | succ n ih =>
    have hp : Pieces (fun _ => True) (fun _ => False) (fun _ Q a _ => Only T Q a) []
        (Exec.callMethod limit (exec limit n)) (Exec.callMethod limit (exec limit n)) (exec limit n)
        (exec limit n) (Exec.text limit n) (Exec.text limit n) :=
      ⟨fun a name args span _ _ _ => .callMethod limit _ a.id name args span, fun _ => False.elim,
        fun span v _ => ih span v⟩
    exact hp.textOver (logic T).toRules span trivial

/-- A node returns what its parts return, and what it returns itself. -/
theorem exec_succ {limit : Option Nat} {n : Nat} {node : Node}
    (hparts : ∀ c ∈ node.parts, Only T (fun _ => True) (exec limit n c))
    (hret : ∀ s v, node = .ret s v → ∀ w, T w s) : Only T (fun _ => True) (exec limit (n + 1) node) := by
  have hp : Pieces (fun _ => True) (· ∈ node.parts) (fun _ Q a _ => Only T Q a) []
      (Exec.callMethod limit (exec limit n)) (Exec.callMethod limit (exec limit n)) (exec limit n)
      (exec limit n) (Exec.text limit n) (Exec.text limit n) :=
    ⟨fun a name args span _ _ _ => .callMethod limit _ a.id name args span, hparts,
      fun span v _ => .text limit n span v⟩
  exact hp.execOver (logic T) (fun _ hc => hc) (fun s v hs w _ => hret s v hs w) fun _ _ _ _ => .returned _

end Only

theorem returnless_iff {a : Exec α} : Returnless a ↔ Only (fun _ _ => False) (fun _ => True) a := by
  constructor
  · intro h m
    rcases hr : (a m).1 with s | x
    · cases s with
      | returning v span => exact absurd hr (h m v span)
      | error e => trivial
      | exhausted => trivial
    · trivial
  · intro h m v span hr
    have ha := h m
    rw [hr] at ha
    exact ha

/-- A node whose parts never return never does, unless it is a `return` itself. -/
theorem returnless_exec_succ {limit : Option Nat} {n : Nat} {node : Node}
    (hparts : ∀ c ∈ node.parts, Returnless (exec limit n c)) (hret : ∀ s v, node ≠ .ret s v) :
    Returnless (exec limit (n + 1) node) :=
  returnless_iff.2 (.exec_succ (fun c hc => returnless_iff.1 (hparts c hc)) fun s v hs => absurd hs (hret s v))

/-- No expression ever ends with a `return`. -/
theorem returnless_of_isExpression {node : Node} (h : node.IsExpression) (limit : Option Nat) (n : Nat) :
    Returnless (exec limit n node) := by
  induction n generalizing node with
  | zero => exact fun _ _ _ => nofun
  | succ n ih =>
    have hself := h.self
    refine returnless_exec_succ (fun c hc => ih (h.child (Node.mem_children_of_mem_parts hc))) ?_
    rintro s v rfl
    exact hself

/-- A `return` on its way has started at a node outside the bodies of methods. -/
theorem exists_outside_of_returning {limit : Option Nat} {n : Nat} {node : Node} {m m' : Machine}
    {v : Value} {span : Span} (h : exec limit n node m = (.error (.returning v span), m')) :
    ∃ value, node.Outside (.ret span value) := by
  suffices hall : Only (fun _ span => ∃ value, node.Outside (.ret span value)) (fun _ => True)
      (exec limit n node) by
    have hm := hall m
    rw [h] at hm
    exact hm
  clear h
  induction n generalizing node with
  | zero => exact fun _ => trivial
  | succ n ih =>
    by_cases hbody : node.IsBody
    · exact (returnless_iff.1 (returnless_of_isBody hbody limit (n + 1))).mono (fun _ _ => False.elim)
        fun _ _ => trivial
    · refine .exec_succ (fun c hc => ih.mono ?_ fun _ hx => hx) ?_
      · rintro _ span ⟨value, hvalue⟩
        exact ⟨value, .part hbody hc hvalue⟩
      · rintro s v rfl _
        exact ⟨v, .self _⟩

end Exec

end ClassScript

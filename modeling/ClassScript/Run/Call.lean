import ClassScript.Run.Machine

/-!
# Calls

A method runs in a frame that holds the receiver and the parameters and nothing else.  The receiver
is bound there without being owned; whoever calls holds it.  The method is looked up before the depth
of the call is compared with the limit.
-/

namespace ClassScript

/-- The frame of a call. Parameters of one name share a binding, which the last of them sets. -/
def Scope.frame (o : ObjId) (params : List String) (args : List Value) : Scope :=
  (({} : Scope).set selfName (.obj (.shared o))).setAll (params.zip args)

namespace Exec

/-- Fails if as many methods are being run as may be. -/
def checkDepth (limit : Option Nat) (span : Span) : Exec Unit := do
  match limit with
  | none => return
  | some n => if n ≤ (← get).depth then raise (.recursionLimit n) span else return

/-- The value of a body in which no `return` may be left over. -/
def closed (act : Exec Value) : Exec Value :=
  tryCatch act fun
    | .returning _ span => raise .returnOutsideMethod span
    | s => throw s

/-- The value of a method's body: what it returns, and nothing if it does not return. -/
def returned (act : Exec Value) : Exec Value :=
  tryCatch (act >>= fun _ => return .none) fun
    | .returning v _ => return v
    | s => throw s

/-- Ways to call a method of an object that the caller holds: the object, the name of the method, its
arguments and the place of the call. -/
abbrev Call := ObjId → String → List Value → Span → Exec Value

/-- Calls a method, given how nodes are carried out. -/
def callMethod (limit : Option Nat) (exec : Node → Exec Value) (o : ObjId) (name : String)
    (args : List Value) (span : Span) : Exec Value := do
  let cls := (← get).heap.classOf o
  traced (.enter cls.name name args.length) do
    match (← get).heap.findMethod? cls name args.length with
    | none => raise (.methodNotFound cls.name name args.length) span
    | some method =>
      checkDepth limit span
      inFrame (.frame o method.params args) (closed (exec method.body))

section

variable (call : Call) (exec : Node → Exec Value)

/-- The values of arguments from left to right; each is held while the later ones are found. -/
def evalArgs : List Node → Exec (List Value)
  | [] => return []
  | a :: rest => do
    let v ← exec a
    let vs ← holding v (evalArgs rest)
    return v :: vs

/-- Calls a method on the value of a node, which must be an object. -/
def callOn (object : Node) (method : String) (args : List Node) (span : Span) : Exec Value := do
  let v ← exec object
  match v with
  | .obj a =>
    let o ← Exec.object a span
    holding (.obj (.owned o)) do
      call o method (← evalArgs exec args) span
  | v => raise (.typeError (.noReceiver method (← typeName v))) span

/-- The name of the method that a new object is set up by. -/
def initName : String := "__init__"

/-- Makes an object of a class. The number of arguments is told, whatever becomes of them. -/
def create (cls : ClassId) (arity : Nat) : Exec ObjId := do
  let o ← modifyGet fun m => (m.heap.fresh, { m with heap := m.heap.allocate cls })
  tell (.newInstance cls.name arity)
  return o

/-- Sets up a new object. Only if its class has a set-up method for as many arguments are they
looked at. -/
def setUp (o : ObjId) (args : List Node) (span : Span) : Exec Unit := do
  if (← get).heap.hasMethod o initName args.length then
    holding (.obj (.owned o)) do
      discard <| call o initName (← evalArgs exec args) span
  else
    return

/-- Makes an object of a class, which must be alive, and sets it up. -/
def instantiate (cls : ClassId) (args : List Node) (span : Span) : Exec Value := do
  if (← get).live (.cls cls) then
    let o ← create cls args.length
    setUp call exec o args span
    return .obj (.owned o)
  else
    raise (.nameError cls.name) span

end

end Exec

end ClassScript

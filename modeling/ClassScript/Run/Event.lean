/-!
# Events

What a run does besides printing, in the order in which it does it.
-/

namespace ClassScript

/-- A step of a run that an observer is told of. -/
inductive Event where
  | classDefined (cls : String) (parent : Option String) (methods : Nat)
  | newInstance (cls : String) (args : Nat)
  /-- A method is called. What follows up to the matching `leave` happens during the call. -/
  | enter (cls method : String) (arity : Nat)
  | leave
  /-- A comparison is left to a method of the left object. -/
  | delegated (cls method : String)
  deriving DecidableEq, Repr

/-- The lines that tell of an event. -/
def Event.lines : Event → List String
  | classDefined cls parent methods =>
    ["DEBUG event defining class class=" ++ cls ++ " parent=" ++ parent.getD "-" ++
      " methods=" ++ toString methods]
  | newInstance cls args =>
    ["DEBUG event new instance class=" ++ cls ++ " args=" ++ toString args]
  | enter cls method arity =>
    ["DEBUG span call_method class=" ++ cls ++ " method=" ++ method ++
      " arity=" ++ toString arity, "enter"]
  | leave => ["exit"]
  | delegated cls method =>
    ["TRACE event delegating comparison class=" ++ cls ++ " method=" ++ method]

end ClassScript

import ClassScript.Span
import ClassScript.Syntax.Operator

/-!
# Runtime errors

What can go wrong while a program runs.  All of these end the run.  Types of values are named as
programs know them.
-/

namespace ClassScript

/-- A value of a type that an operation has no use for. -/
inductive TypeFault where
  /-- A field is set on a value that is no object. -/
  | noObject (field : String) (path : List String) (type : String)
  /-- A method is called on a value that is no object. -/
  | noReceiver (method type : String)
  /-- The object of a handle that does not own it is gone. -/
  | released
  | unsupported (op : ArithOp) (left right : String)
  | notComparable (op : Comparator) (left right : String)
  | other (text : String)
  deriving DecidableEq, Repr

/-- Two values of one type that have no order or no equality. -/
inductive ComparisonFault where
  | unordered (op : Comparator)
  /-- The class of the left value lacks the method that compares. -/
  | missingMethod (cls : String) (op : Comparator) (method : String)
  | other (text : String)
  deriving DecidableEq, Repr

/-- What goes wrong at a node. -/
inductive RuntimeFault where
  | nameError (name : String)
  | methodNotFound (cls method : String) (arity : Nat)
  | typeError (why : TypeFault)
  | divisionByZero
  | comparisonError (why : ComparisonFault)
  | returnOutsideMethod
  | overflow (op : ArithOp)
  | recursionLimit (limit : Nat)
  deriving DecidableEq, Repr

/-- A fault at a node, or a fault of the output, which has no place in the program. -/
inductive RuntimeError where
  | raised (fault : RuntimeFault) (span : Span)
  | output (text : String)
  deriving DecidableEq, Repr

/-- What is said about a value of the wrong type. -/
def TypeFault.text : TypeFault → String
  | noObject field path type =>
    "cannot set field '" ++ field ++ "' on '" ++ ".".intercalate path ++ "': " ++ type ++
      " is not an object"
  | noReceiver method type =>
    "cannot call method '" ++ method ++ "' on a value of type '" ++ type ++ "'"
  | released => "object has already been released"
  | unsupported op left right =>
    "unsupported operand types for " ++ op.symbol ++ ": '" ++ left ++ "' and '" ++ right ++ "'"
  | notComparable op left right =>
    "'" ++ op.symbol ++ "' not supported between '" ++ left ++ "' and '" ++ right ++ "'"
  | other text => text

/-- What is said about values that do not compare. -/
def ComparisonFault.text : ComparisonFault → String
  | unordered op => "values do not support '" ++ op.symbol ++ "'"
  | missingMethod cls op method =>
    "'" ++ cls ++ "' objects do not support '" ++ op.symbol ++ "': " ++ method ++ " is not defined"
  | other text => text

/-- The operation that an overflow is reported for. -/
def ArithOp.operation : ArithOp → String
  | add => "addition"
  | sub => "subtraction"
  | mul => "multiplication"
  | div => "division"

/-- What is said about a fault. -/
def RuntimeFault.text : RuntimeFault → String
  | nameError name => "NameError: name '" ++ name ++ "' is not defined"
  | methodNotFound cls method arity =>
    "MethodNotFound: class " ++ cls ++ " has no method '" ++ method ++ "' taking " ++
      toString arity ++ " argument(s)"
  | typeError why => "TypeError: " ++ why.text
  | divisionByZero => "ZeroDivisionError: integer division by zero"
  | comparisonError why => "ComparisonError: " ++ why.text
  | returnOutsideMethod => "'return' outside of a method body"
  | overflow op => "Integer overflow in " ++ op.operation
  | recursionLimit limit => "Maximum call depth of " ++ toString limit ++ " exceeded"

namespace RuntimeError

/-- What is said about an error and its place. -/
def message : RuntimeError → String
  | raised fault span => fault.text ++ " at " ++ span.text
  | output text => "Failed to write output: " ++ text

/-- The node at which an error arose. -/
def span? : RuntimeError → Option Span
  | raised _ span => some span
  | output _ => none

end RuntimeError

end ClassScript

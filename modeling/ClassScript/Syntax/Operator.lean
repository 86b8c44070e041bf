/-!
# Operators

The binary operators of the language and their symbols.
-/

namespace ClassScript

/-- The arithmetic operators. -/
inductive ArithOp where
  | add | sub | mul | div
  deriving DecidableEq, Repr

/-- The symbol of an arithmetic operator. -/
def ArithOp.symbol : ArithOp → String
  | add => "+"
  | sub => "-"
  | mul => "*"
  | div => "/"

/-- The operators that may leave their right operand alone. -/
inductive LogicOp where
  | and | or
  deriving DecidableEq, Repr

/-- The relational operators. -/
inductive Comparator where
  | eq | ne | lt | gt | le | ge
  deriving DecidableEq, Repr

/-- The symbol of a relational operator. -/
def Comparator.symbol : Comparator → String
  | eq => "=="
  | ne => "!="
  | lt => "<"
  | gt => ">"
  | le => "<="
  | ge => ">="

end ClassScript

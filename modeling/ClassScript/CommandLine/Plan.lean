/-!
# The command line

What the arguments of the command ask for.  They are read from left to right, and the first that
settles the matter ends the reading.
-/

namespace ClassScript.CommandLine

/-- Where a program's text comes from. -/
inductive Source where
  | file (name : String)
  | code (text : String)
  | stdin
  deriving DecidableEq, Repr

/-- A program to run. -/
structure Job where
  source : Source := .stdin
  /-- The limit to the depth of calls. -/
  limit : Option Nat := none
  deriving DecidableEq, Repr

/-- What the arguments ask for. -/
inductive Plan where
  | help
  | version
  | misuse (message : String)
  | run (job : Job)
  deriving DecidableEq, Repr

/-- The number that digits write, a plus sign before them allowed, if it fits into 64 bits. -/
def depth? (text : String) : Option Nat :=
  let digits := match text.toList with
    | '+' :: cs => cs
    | cs => cs
  if digits.isEmpty || !digits.all Char.isDigit then none
  else
    let n := digits.foldl (fun n d => 10 * n + (d.toNat - 48)) 0
    if n ≤ 0xffffffffffffffff then some n else none

/-- A job with its program, unless it has one. -/
def Job.choose (job : Job) (source : Source) : Except String Job :=
  if job.source = .stdin then .ok { job with source := source }
  else .error "Only one program can be specified"

/-- What the arguments ask for, where those before them have made up `job`. -/
def Plan.ofArgsWith (job : Job) : List String → Plan
  | [] => .run job
  | arg :: rest =>
    if arg = "--help" ∨ arg = "-h" then .help
    else if arg = "--version" ∨ arg = "-V" then .version
    else if arg = "--max-depth" then
      match rest with
      | [] => .misuse "--max-depth requires a number"
      | value :: rest =>
        match depth? value with
        | some n => Plan.ofArgsWith { job with limit := some n } rest
        | none => .misuse ("Invalid --max-depth value: " ++ value)
    else if arg = "-e" then
      match rest with
      | [] => .misuse "-e requires a code argument"
      | code :: rest =>
        match job.choose (.code code) with
        | .ok job => Plan.ofArgsWith job rest
        | .error message => .misuse message
    else if arg.startsWith "-" then .misuse ("Unknown option: " ++ arg)
    else
      match job.choose (.file arg) with
      | .ok job => Plan.ofArgsWith job rest
      | .error message => .misuse message

/-- What the arguments of the command ask for. -/
def Plan.ofArgs (args : List String) : Plan := Plan.ofArgsWith {} args

end ClassScript.CommandLine

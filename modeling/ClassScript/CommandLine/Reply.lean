import ClassScript.CommandLine.Plan
import ClassScript.Run.Program

/-!
# What the command answers

The exit code and the two outputs of the command.  Where a program must be read first, `Plan.reply`
asks for its text; a text that cannot be read comes as the reason why.
-/

namespace ClassScript.CommandLine

/-- What the command leaves behind. -/
structure Reply where
  code : Nat := 0
  stdout : ByteArray := .empty
  stderr : String := ""

/-- The version of the language that the command runs. -/
def versionText : String := "0.4.0"

/-- How the command is used. -/
def usage : String :=
  "\n".intercalate [
    "Mython " ++ versionText ++ " - Mython Interpreter",
    "",
    "Usage: mython [options] [script.my]",
    "       mython [options] -e <code>",
    "",
    "Without a script, the program is read from standard input.",
    "",
    "Options:",
    "  -e <code>        Evaluate code directly",
    "  --max-depth N    Fail when method calls nest deeper than N",
    "  --version, -V    Show version",
    "  --help, -h       Show this help message",
    "",
    "Environment:",
    "  RUST_LOG         Enable interpreter logging on stderr (e.g. RUST_LOG=mython=debug)",
    "",
    "Examples:",
    "  mython script.my               Run a script file",
    "  mython < script.my             Run a program from stdin",
    "  mython --max-depth 500 a.my    Run with a recursion limit",
    "  mython -e 'print 1 + 1'        Evaluate code directly",
    ""]

/-- A line that tells of an error, in bold red at its beginning if colours are asked for. -/
def errorLine (coloured : Bool) (message : String) : String :=
  (if coloured then "\x1b[1;31mError:\x1b[0m " else "Error: ") ++ message ++ "\n"

/-- The exit code that tells the phase of a failure. -/
def exitCode : Failure → Nat
  | .lexical _ | .syntactic _ => 65
  | .runtime (.output _) | .io _ => 74
  | .runtime (.raised _ _) => 70

/-- The text that bytes encode. -/
def decode (bytes : ByteArray) : Except String String :=
  match String.fromUTF8? bytes with
  | some text => .ok text
  | none => .error "stream did not contain valid UTF-8"

/-- The answer to a program whose text cannot be read. -/
def unreadable (coloured : Bool) (source : Source) (why : String) : Reply :=
  let what := match source with
    | .file name => "Failed to read file '" ++ name ++ "': "
    | _ => "Failed to read standard input: "
  { code := 74, stderr := errorLine coloured (what ++ why) }

/-- The answer to a program; nothing if it does not end. -/
def Job.reply (job : Job) (coloured : Bool) (text : String) : Option Reply :=
  (runText text job.limit {}).map fun report =>
    match report.failure with
    | none => { stdout := report.output }
    | some f =>
      { code := exitCode f, stdout := report.output, stderr := errorLine coloured f.message }

/-- The answer to a plan, where `read` gives the bytes of files and of the standard input. -/
def Plan.reply (plan : Plan) (coloured : Bool) (read : Source → Except String ByteArray) :
    Option Reply :=
  match plan with
  | .help => some { stderr := usage }
  | .version => some { stdout := ("mython " ++ versionText ++ "\n").toUTF8 }
  | .misuse message => some { code := 64, stderr := errorLine coloured message ++ usage }
  | .run job =>
    match job.source with
    | .code text => job.reply coloured text
    | source =>
      match read source >>= decode with
      | .ok text => job.reply coloured text
      | .error why => some (unreadable coloured source why)

end ClassScript.CommandLine

import ClassScript.CommandLine.Folder
import ClassScript.CommandLine.Reply

/-!
# The command

Reads what the plan asks for, writes the answer, and ends with its code.
-/

namespace ClassScript.CommandLine

/-- The reason why a file cannot be read. -/
def reason : IO.Error → String
  | .noFileOrDirectory _ _ _ => ReadFault.missing.text
  | .permissionDenied _ _ _ => ReadFault.denied.text
  | .inappropriateType _ 20 _ => ReadFault.notFolder.text
  | .inappropriateType _ _ _ => ReadFault.isFolder.text
  | e => toString e

/-- All bytes of a stream. -/
def drain (input : IO.FS.Stream) : IO ByteArray := do
  let mut bytes := ByteArray.empty
  repeat
    let more ← input.read 65536
    if more.isEmpty then break
    bytes := bytes ++ more
  return bytes

/-- The bytes of a program's text. -/
def fetch : Source → IO (Except String ByteArray)
  | .file name => try return .ok (← IO.FS.readBinFile name) catch e => return .error (reason e)
  | .code text => return .ok text.toUTF8
  | .stdin => return .ok (← drain (← IO.getStdin))

/-- Whether to colour errors: as the environment says, or else if a terminal reads the output. -/
def wantsColour : IO Bool := do
  let forced ← IO.getEnv "CLICOLOR_FORCE"
  let refused ← IO.getEnv "NO_COLOR"
  let allowed ← IO.getEnv "CLICOLOR"
  if forced.any (· ≠ "0") then return true
  else if refused.isSome then return false
  else return allowed ≠ some "0" && (← (← IO.getStdout).isTty)

end ClassScript.CommandLine

open ClassScript.CommandLine in
/-- Runs the command. -/
def main (args : List String) : IO UInt32 := do
  let plan := Plan.ofArgs args
  let bytes ← match plan with
    | .run job => fetch job.source
    | _ => pure (.ok .empty)
  match plan.reply (← wantsColour) fun _ => bytes with
  | some reply =>
    let output ← IO.getStdout
    output.write reply.stdout
    output.flush
    (← IO.getStderr).putStr reply.stderr
    return reply.code.toUInt32
  | none => return 1

import LosslessTree.Command.Run

/-!
# `Main` — the program

Reads the files that the command needs, hands them to `runProgram`, and prints the report.
-/

namespace LosslessTree

/-- The text of a file. -/
def readText (name : String) : IO (Except FileError String) := do
  try
    let bytes ← IO.FS.readBinFile name
    return match String.fromUTF8? bytes with
      | some text => .ok text
      | none => .error .notText
  catch e =>
    return .error <| match e with
      | .noFileOrDirectory .. => .notFound
      | .inappropriateType _ code _ => if code = 20 then .notAFolder else .isAFolder
      | .resourceExhausted .. => .nameTooLong
      | e => .other (toString e)

/-- Whether the environment asks for colours. -/
def wantsColours : IO Bool := do
  let set (name : String) : IO (Option Bool) := do
    return (← IO.getEnv name).map (· != "0")
  if (← set "CLICOLOR_FORCE") == some true then return true
  if (← set "NO_COLOR").isSome then return false
  if (← set "CLICOLOR") == some false then return false
  (← IO.getStdout).isTty

end LosslessTree

open LosslessTree

/-- Runs the program. -/
def main (arguments : List String) : IO UInt32 := do
  let names := match Request.parse arguments with
    | .ok (.command command) => command.files
    | _ => []
  let texts ← names.mapM fun name => do return (name, ← readText name)
  let env : Environment :=
    { read := fun name => (texts.lookup name).getD (.error .notFound)
      colours := ← wantsColours }
  let report := runProgram env arguments
  (← IO.getStdout).putStr report.out
  (← IO.getStderr).putStr report.err
  return report.exit.toUInt32

import BedrockCommand.CommandLine.Run
/-!
The program: it hands the arguments and the files to `CommandLine.run` and prints what that
leaves.
-/
namespace BedrockCommand.CommandLine

/-- The number of a system error, which some calls give with its sign turned. -/
def errorNumber (code : UInt32) : Nat :=
  if code.toNat < Nat.pow 2 31 then code.toNat else Nat.pow 2 32 - code.toNat

/-- Why an attempt to read a file failed. -/
def ReadFailure.ofError : IO.Error → ReadFailure
  | .noFileOrDirectory _ code text | .inappropriateType _ code text
  | .invalidArgument _ code text | .permissionDenied _ code text =>
    match errorNumber code with
    | 2 => .missing
    | 20 => .notDirectory
    | 21 => .directory
    | 36 => .nameTooLong
    | n => .other (systemMessage n text)
  | e => .other (toString e)

def readBytes (path : String) : IO (Except ReadFailure ByteArray) := do
  try return .ok (← IO.FS.readBinFile path)
  catch e => return .error (.ofError e)

/-- The bytes of the standard input. -/
def readInput : IO (Except ReadFailure ByteArray) := do
  try return .ok (← (← IO.getStdin).readBinToEnd)
  catch e => return .error (.ofError e)

/-- The files that a request names. -/
def Action.paths : Action → List String
  | .tokenize file o | .check file o _ => o.profile.toList ++ [file]
  | .explain _ | .versions => []

/-- Reads the files that arguments name. -/
def reachable (args : List String) : IO Files := do
  let paths := match Request.ofArguments args with
    | .ok request => request.action.paths
    | .error _ => []
  let found ← paths.mapM fun path => do return (path, ← readBytes path)
  let input ← if paths.contains "-" then readInput else pure (.ok .empty)
  return ⟨fun path => (found.lookup path).getD (.error .missing), input⟩

def Remark.lines : Remark → List String
  | .line text => [text]
  | .log record => [record.line]
  | .report r => [r.heading, "  " ++ r.label] ++ r.help.toList.map ("  Help: " ++ ·)

end BedrockCommand.CommandLine

def main (args : List String) : IO UInt32 := do
  let result := BedrockCommand.CommandLine.run
    (← BedrockCommand.CommandLine.reachable args) args
  for remark in result.remarks do
    for line in remark.lines do IO.eprintln line
  IO.print result.output
  return .ofNat result.code

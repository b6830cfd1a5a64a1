import BedrockCommand.CommandLine.Files
import BedrockCommand.CommandLine.Request
import BedrockCommand.Log
import BedrockCommand.Profile.Json
/-!
The settings of a run: what the command line gives, then what the profile says, then defaults.
-/
namespace BedrockCommand.CommandLine

/-- Why a run comes to nothing. -/
inductive Failure where
  | profileUnread (path : String) (cause : ReadFailure)
  | profileRejected (path : String) (cause : ProfileError)
  | versionRejected (text : String) (cause : VersionError)
  /-- Lines are counted from one. -/
  | lineZero
  | fileUnread (path : String) (cause : ReadFailure)
  | inputUnread (cause : ReadFailure)
  /-- The file cannot be tokenized. -/
  | faulty (fault : Fault)
deriving DecidableEq, Repr

/-- What is said about a run that comes to nothing. -/
def Failure.message : Failure → String
  | profileUnread path cause => "failed to read profile " ++ path ++ ": " ++ cause.message
  | profileRejected path cause => "invalid profile " ++ path ++ ": " ++ cause.message
  | versionRejected text cause =>
    "unusable game version " ++ Text.quote text ++ ": " ++ cause.message
  | lineZero => "--line must be at least 1"
  | fileUnread path cause => "failed to read " ++ path ++ ": " ++ cause.message
  | inputUnread cause => "failed to read stdin: " ++ cause.message
  | faulty fault => fault.message

/-- How a file is read and what is reported of it. -/
structure Settings where
  version : Version
  start : Position
  profile : Option Profile
deriving DecidableEq, Repr

namespace Settings

/-- The profile at a path. -/
def loadProfile (files : Files) (path : String) : Except Failure Profile := do
  let text ← (files.text path).mapError (.profileUnread path)
  (Profile.parse text).mapError (.profileRejected path)

/-- The version that a text asks for; without a text, the latest one. -/
def chooseVersion : Option String → Except Failure Version
  | none => .ok .latest
  | some text => (Version.parse text).mapError (.versionRejected text)

def resolve (files : Files) (o : Overrides) : Except Failure Settings := do
  let profile ← o.profile.mapM (loadProfile files)
  let version ← chooseVersion (o.gameVersion <|> profile.bind (·.gameVersion))
  let line := (o.line <|> profile.bind (·.startLine)).getD Position.origin.line
  if line = 0 then throw .lineZero
  let column := (o.column <|> profile.bind (·.startColumn)).getD Position.origin.column
  return ⟨version, ⟨line, column⟩, profile⟩

def record (s : Settings) : LogRecord :=
  ⟨.debug, "mccmd",
    "grammar " ++ toString s.version ++ ", first character at " ++ toString s.start⟩

end Settings
end BedrockCommand.CommandLine

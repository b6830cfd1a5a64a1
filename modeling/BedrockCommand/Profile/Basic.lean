import BedrockCommand.Json.Reader.Basic
import BedrockCommand.Version.Basic
/-!
Profiles: settings that are kept in a file, usually one for each project. A setting that a
profile leaves out has its default.
-/
namespace BedrockCommand

/-- Settings for reading command files. -/
structure Profile where
  id : String
  /-- The version of the profile's own format. -/
  schemaVersion : String
  /-- The game version whose grammar is used. -/
  gameVersion : Option String
  /-- The number of the first line of a file. -/
  startLine : Option Nat
  /-- The column of the first character of a file. -/
  startColumn : Option Nat
  /-- The codes of the warnings that are not reported. -/
  suppressedWarnings : Option (List String)
deriving DecidableEq, Repr

/-- Why a profile is rejected. -/
inductive ProfileError where
  /-- The text does not hold a profile. -/
  | unreadable (fault : JsonFault)
  | blank (field : String)
  /-- The game version is not three numbers with points between them. -/
  | malformedVersion (text : String)
  /-- Lines are counted from one. -/
  | lineZero
  /-- Something other than the code of a warning is suppressed. -/
  | notWarningCode (code : String)
deriving DecidableEq, Repr

namespace ProfileError

/-- The field that is wrong, and what is wrong with it; none for a text that holds no
profile. -/
def field? : ProfileError → Option (String × String)
  | unreadable _ => none
  | blank field => some (field, "must not be empty")
  | malformedVersion text =>
    some ("game_version", Text.quote text ++ " is not major.minor.patch")
  | lineZero => some ("start_line", "must be >= 1")
  | notWarningCode code =>
    some ("suppress_warnings", Text.quote code ++ " is not a warning code (MCC2xxx)")

/-- The message that is shown for a rejected profile. -/
def message (e : ProfileError) : String :=
  match e with
  | unreadable fault => "invalid profile JSON: " ++ fault.message
  | e => match e.field? with
    | some (field, reason) => "invalid " ++ field ++ ": " ++ reason
    | none => ""

end ProfileError

namespace Profile

/-- Whether the warnings of a code are not reported. -/
def suppresses (p : Profile) (code : String) : Bool :=
  (p.suppressedWarnings.getD []).contains code

/-- Whether nothing but blanks is in a text. -/
def isBlank (text : String) : Bool :=
  text.toList.all Text.isBlank

/-- Whether a text is three numbers with points between them, and nothing around them. -/
def isVersion (text : String) : Bool :=
  let parts := Version.split text.toList
  parts.length = 3 && parts.all fun part => (Numeral.natural? (Nat.pow 2 32) part).isSome

/-- Whether a text is the code of a warning: `MCC2` and three digits. -/
def isWarningCode (code : String) : Bool :=
  match code.toList with
  | ['M', 'C', 'C', '2', a, b, c] => a.isDigit && b.isDigit && c.isDigit
  | _ => false

/-- The first setting that cannot be, in the order of the fields. -/
def error? (p : Profile) : Option ProfileError :=
  if isBlank p.id then some (.blank "id")
  else if isBlank p.schemaVersion then some (.blank "schema_version")
  else
    (p.gameVersion.filter (!isVersion ·)).map .malformedVersion <|>
      (p.startLine.filter (· = 0)).map (fun _ => .lineZero) <|>
      ((p.suppressedWarnings.getD []).find? (!isWarningCode ·)).map .notWarningCode

end Profile
end BedrockCommand

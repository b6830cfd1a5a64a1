import BedrockCommand.Number.Numeral
import BedrockCommand.Text.Blank
import BedrockCommand.Text.Quoted
/-!
Game versions. A version is three numbers, ordered from the left, and never older than the
oldest grammar.
-/
namespace BedrockCommand

/-- Whether a version that starts with these two numbers is 1.19.0 or newer. -/
def isSupported (major minor : UInt32) : Bool :=
  1 < major || major = 1 && 19 ≤ minor

/-- A game version that has a grammar. -/
structure Version where
  major : UInt32
  minor : UInt32
  patch : UInt32
  supported : isSupported major minor = true
deriving DecidableEq, Repr

/-- Why a version is rejected. -/
inductive VersionError where
  /-- The text is not three numbers with points between them. -/
  | malformed (text : String)
  /-- The version is older than the oldest grammar. -/
  | unsupported (text : String)
deriving DecidableEq, Repr

namespace Version

/-- The version of the oldest grammar. -/
def oldest : Version := ⟨1, 19, 0, by decide⟩

/-- From here on `execute` is a chain of subcommands. -/
def v1_19_50 : Version := ⟨1, 19, 50, by decide⟩

/-- From here on blocks have no data values. -/
def v1_19_70 : Version := ⟨1, 19, 70, by decide⟩

/-- From here on there are `haspermission` and `inputpermission`. -/
def v1_19_80 : Version := ⟨1, 19, 80, by decide⟩

/-- The version of the newest grammar. -/
def latest : Version := v1_19_80

instance : Inhabited Version := ⟨latest⟩

/-- The three numbers with points between them. -/
def numbersText (major minor patch : UInt32) : String :=
  toString major.toNat ++ "." ++ toString minor.toNat ++ "." ++ toString patch.toNat

instance : ToString Version where
  toString v := numbersText v.major v.minor v.patch

/-- The version of three numbers, unless it is too old. -/
def ofParts (major minor patch : UInt32) : Except VersionError Version :=
  if h : isSupported major minor = true then .ok ⟨major, minor, patch, h⟩
  else .error (.unsupported (numbersText major minor patch))

/-- The order of two versions: the leftmost number in which they differ decides. -/
def order (v w : Version) : Ordering :=
  (compare v.major w.major).then <| (compare v.minor w.minor).then <| compare v.patch w.patch

/-- Whether one version is not newer than another. -/
def atMost (v w : Version) : Bool :=
  v.order w != .gt

/-- The parts of a text between its points. -/
def split : List Char → List (List Char)
  | [] => [[]]
  | c :: cs =>
    if c = '.' then [] :: split cs
    else match split cs with
      | [] => [[c]]
      | part :: parts => (c :: part) :: parts

/-- The three numbers that a text denotes, each below 2^32 and with a plus sign or none. -/
def parts? (cs : List Char) : Option (UInt32 × UInt32 × UInt32) :=
  match (split cs).map (Numeral.natural? (Nat.pow 2 32)) with
  | [some major, some minor, some patch] =>
    some (UInt32.ofNat major, UInt32.ofNat minor, UInt32.ofNat patch)
  | _ => none

/-- The version that a text denotes. Blanks around it do not count, but an error shows them. -/
def parse (text : String) : Except VersionError Version :=
  match parts? (Text.trim text.toList) with
  | some (major, minor, patch) => ofParts major minor patch
  | none => .error (.malformed text)

end Version

/-- The message that is shown for a rejected version. -/
def VersionError.message : VersionError → String
  | malformed text => "invalid version " ++ Text.quote text ++ ": expected major.minor.patch"
  | unsupported text =>
    "version " ++ text ++ " is older than the minimum supported version " ++
      toString Version.oldest

end BedrockCommand

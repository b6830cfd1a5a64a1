import BedrockCommand.Json.Reader.Value
import BedrockCommand.Profile.Basic
/-!
Reading profiles: an object whose fields come in any order, with fields of other names passed
over, or an array of all the fields in their order.
-/
namespace BedrockCommand

inductive ProfileField where
  | id
  | schemaVersion
  | gameVersion
  | startLine
  | startColumn
  | suppressedWarnings
deriving DecidableEq, Repr

namespace ProfileField

/-- The fields in their order. -/
def all : List ProfileField :=
  [id, schemaVersion, gameVersion, startLine, startColumn, suppressedWarnings]

/-- The name of a field in a file. -/
def name : ProfileField → String
  | id => "id"
  | schemaVersion => "schema_version"
  | gameVersion => "game_version"
  | startLine => "start_line"
  | startColumn => "start_column"
  | suppressedWarnings => "suppress_warnings"

def ofName? (name : String) : Option ProfileField :=
  all.find? (·.name = name)

end ProfileField

/-- The fields of a profile that have been read. -/
structure ProfileDraft where
  id : Option String
  schemaVersion : Option String
  gameVersion : Option (Option String)
  startLine : Option (Option Nat)
  startColumn : Option (Option Nat)
  suppressedWarnings : Option (Option (List String))

namespace ProfileDraft

def empty : ProfileDraft :=
  ⟨none, none, none, none, none, none⟩

def has (d : ProfileDraft) : ProfileField → Bool
  | .id => d.id.isSome
  | .schemaVersion => d.schemaVersion.isSome
  | .gameVersion => d.gameVersion.isSome
  | .startLine => d.startLine.isSome
  | .startColumn => d.startColumn.isSome
  | .suppressedWarnings => d.suppressedWarnings.isSome

def read (d : ProfileDraft) : ProfileField → JsonReader ProfileDraft
  | .id => return { d with id := some (← JsonReader.text) }
  | .schemaVersion => return { d with schemaVersion := some (← JsonReader.text) }
  | .gameVersion =>
    return { d with gameVersion := some (← JsonReader.optional JsonReader.text) }
  | .startLine =>
    return { d with startLine := some (← JsonReader.optional JsonReader.natural) }
  | .startColumn =>
    return { d with startColumn := some (← JsonReader.optional JsonReader.natural) }
  | .suppressedWarnings =>
    return { d with suppressedWarnings := some (← JsonReader.optional JsonReader.texts) }

/-- The profile, if all that it needs has been read. -/
def profile? (d : ProfileDraft) : Option Profile := do
  return {
    id := ← d.id
    schemaVersion := ← d.schemaVersion
    gameVersion := d.gameVersion.join
    startLine := d.startLine.join
    startColumn := d.startColumn.join
    suppressedWarnings := d.suppressedWarnings.join }

/-- One field of an object, or its end. No field may come twice. The state is what was read,
and whether the next field is the first one. -/
def fieldRound (s : ProfileDraft × Bool) : JsonReader (ProfileDraft × Bool ⊕ Profile) := do
  let (draft, isFirst) := s
  if ← JsonReader.another '}' isFirst then
    match ProfileField.ofName? (← JsonReader.string .strict) with
    | none =>
      JsonReader.symbol ':'
      JsonReader.pass
      return .inl (draft, false)
    | some field =>
      if draft.has field then throw .mismatched
      JsonReader.symbol ':'
      return .inl (← draft.read field, false)
  else
    match draft.profile? with
    | none => throw .mismatched
    | some p =>
      JsonReader.symbol '}'
      return .inr p

/-- The fields of an array, each of which has to be there. -/
def items (draft : ProfileDraft) (isFirst : Bool) : List ProfileField → JsonReader ProfileDraft
  | [] => return draft
  | field :: fields => do
    if ← JsonReader.another ']' isFirst then
      items (← draft.read field) false fields
    else throw .mismatched

end ProfileDraft

namespace Profile

/-- Reads a profile without looking at what its settings say. -/
def reader : JsonReader Profile := do
  match ← JsonReader.ahead with
  | '{' =>
    JsonReader.symbol '{'
    JsonReader.loop ProfileDraft.fieldRound (.empty, true)
  | '[' =>
    JsonReader.symbol '['
    let draft ← ProfileDraft.empty.items true ProfileField.all
    JsonReader.symbol ']'
    match draft.profile? with
    | some p => return p
    | none => throw .mismatched
  | _ => JsonReader.mismatch

def parse (text : String) : Except ProfileError Profile :=
  match reader.whole text with
  | .error fault => .error (.unreadable fault)
  | .ok p =>
    match p.error? with
    | some e => .error e
    | none => .ok p

end Profile
end BedrockCommand

import BedrockCommand.Diagnostic.Record
/-!
The JSON records of positions, spans, errors, warnings and diagnostics. A record is an object
with named fields; fields with other names are passed over, and an array of all the fields in
their order is read as well.
-/
namespace BedrockCommand

namespace JsonValue

def string? : JsonValue → Option String
  | string s => some s
  | _ => none

/-- The number of an integer value, if it is a natural number of at most 64 bits. -/
def natural? : JsonValue → Option Nat
  | integer n => if 0 ≤ n ∧ n.toNat < Nat.pow 2 64 then some n.toNat else none
  | _ => none

/-- The values of a record's fields, by their names: of an object, each field or none; of an
array, all of them in order. -/
def fields? (names : List String) (v : JsonValue) : Option (List (Option JsonValue)) :=
  match v with
  | object _ => some (names.map v.field?)
  | array items => if items.length = names.length then some (items.map some) else none
  | _ => none

/-- The tag of a tagged record and the record that holds its other fields: the tag is a field
of its name, or comes first. -/
def tagged? (name : String) (v : JsonValue) : Option (JsonValue × JsonValue) :=
  match v with
  | object _ => (v.field? name).map fun tag => (tag, v)
  | array (tag :: rest) => some (tag, .array rest)
  | _ => none

/-- Whether a value is an array with something in it. -/
def holdsItems : JsonValue → Bool
  | array (_ :: _) => true
  | _ => false

/-- Reads a field that may be left out or null. -/
def optional? (read : JsonValue → Option α) : Option JsonValue → Option (Option α)
  | none => some none
  | some null => some none
  | some v => (read v).map some

end JsonValue

def Position.toJson (p : Position) : JsonValue :=
  .object [("line", .integer p.line), ("column", .integer p.column)]

def Position.ofJson? (v : JsonValue) : Option Position := do
  match ← v.fields? ["line", "column"] with
  | [some line, some column] => return ⟨← line.natural?, ← column.natural?⟩
  | _ => none

def Span.toJson (s : Span) : JsonValue :=
  .object [("begin", s.start.toJson), ("end", s.stop.toJson)]

/-- The span of a record, whatever the order of its ends. -/
def Span.ofJson? (v : JsonValue) : Option Span := do
  match ← v.fields? ["begin", "end"] with
  | [some start, some stop] => return ⟨← Position.ofJson? start, ← Position.ofJson? stop⟩
  | _ => none

/-- The fields of an error's record after its kind. -/
def SyntaxError.details : SyntaxError → List (String × JsonValue)
  | expectedChar c => [("expected", .string c.toString)]
  | expectedBooleanOr keywords => [("options", .string (Text.listed keywords))]
  | expectedSeparator close | unclosedBracket close => [("close", .string close.toString)]
  | outOfRange least greatest =>
    [("min", .number least), ("max", greatest.elim .null .number)]
  | unknownCommand name => [("command", .string name)]
  | invalidOption word allowed =>
    [("option", .string word), ("allowed", .string (Text.listed allowed))]
  | invalidSelectorOption name | invalidHasitemKey name => [("arg", .string name)]
  | invalidSelectorVariable name => [("var", .string name)]
  | nestingTooDeep limit => [("limit", .integer limit)]
  | _ => []

def SyntaxError.toJson (e : SyntaxError) : JsonValue :=
  .object (("kind", .string e.kindName) :: e.details)

def WarningKind.toJson (k : WarningKind) : JsonValue :=
  .object (("kind", .string k.kindName) ::
    k.parameters.map fun (name, value) => (name, .string value))

/-- The warning's kind of a record: the kind's name, and the command where it has one. -/
def WarningKind.ofJson? (v : JsonValue) : Option WarningKind := do
  let (kind, rest) ← v.tagged? "kind"
  match ← kind.string? with
  | "no_permission" =>
    match ← rest.fields? ["command"] with
    | [some command] => return .noPermission (← command.string?)
    | _ => none
  | "dangerous_hasitem_data" => if rest.holdsItems then none else some .negativeHasitemData
  | "block_data" => if rest.holdsItems then none else some .blockData
  | _ => none

def Warning.toJson (w : Warning) : JsonValue :=
  .object [("kind", w.kind.toJson), ("span", w.span.toJson)]

def Warning.ofJson? (v : JsonValue) : Option Warning := do
  match ← v.fields? ["kind", "span"] with
  | [some kind, some span] => return ⟨← WarningKind.ofJson? kind, ← Span.ofJson? span⟩
  | _ => none

def Context.toJson (c : Context) : JsonValue :=
  .object (c.entries.map fun (name, value) => (name, .string value))

/-- The context of a record, all of whose values are strings. -/
def Context.ofJson? : JsonValue → Option Context
  | .object fields => do
    let parts ← fields.mapM fun (name, value) => do return (name, ← value.string?)
    return Context.ofList parts
  | _ => none

def Severity.toJson (s : Severity) : JsonValue :=
  .string s.name

/-- The severity of a record: its name, alone or as the one field of an object, which is then
null. -/
def Severity.ofJson? : JsonValue → Option Severity
  | .string name | .object [(name, .null)] => ofName? name
  | _ => none

/-- The record of a diagnostic, without the fields that it does not have. -/
def Diagnostic.toJson (d : Diagnostic) : JsonValue :=
  .object <|
    [("id", .string d.id), ("severity", d.severity.toJson), ("message", .string d.message)] ++
      (d.span.map fun s => ("span", s.toJson)).toList ++
      (d.context.map fun c => ("context", c.toJson)).toList

def Diagnostic.ofJson? (v : JsonValue) : Option Diagnostic := do
  match ← v.fields? ["id", "severity", "message", "span", "context"] with
  | [some id, some severity, some message, span, context] =>
    return {
      id := ← id.string?
      severity := ← Severity.ofJson? severity
      message := ← message.string?
      span := ← JsonValue.optional? Span.ofJson? span
      context := ← JsonValue.optional? Context.ofJson? context }
  | _ => none

end BedrockCommand

import BedrockCommand.Log
import BedrockCommand.Profile.Basic
import BedrockCommand.Source.LineIndex
import BedrockCommand.Text.Colour
import BedrockCommand.Token.Json
/-!
What is shown of a command file: its tokens line by line, or the diagnostics that are
reported, each with the source that it is about.
-/
namespace BedrockCommand

/-- Whether a diagnostic is reported under a profile. Errors always are. -/
def Diagnostic.isReported (profile : Option Profile) (d : Diagnostic) : Bool :=
  d.severity = .error || !(profile.any (·.suppresses d.id))

def Diagnostic.isErrorOn (line : Nat) (d : Diagnostic) : Bool :=
  d.severity = .error && d.span.any (·.start.line = line)

/-- The diagnostics that are reported: those that the profile leaves, or with a focus only the
first error on one line. -/
def Tokenized.reported (t : Tokenized) (profile : Option Profile) (focus : Option Nat) :
    List Diagnostic :=
  let kept := t.diagnostics.filter (·.isReported profile)
  match focus with
  | none => kept
  | some line => (kept.find? (·.isErrorOn line)).toList

/-- The offsets of the first character of a diagnostic's source and of the one after it. -/
def Diagnostic.range? (index : LineIndex) (d : Diagnostic) : Option (Nat × Nat) := do
  let span ← d.span
  let start ← index.offset? span.start
  let stop ← index.offset? span.stop
  return (start, max start stop)

namespace CommandLine

/-- A diagnostic that is shown beside its source. -/
structure Report where
  heading : String
  /-- What is said at the source. -/
  label : String
  /-- The meaning of the code. -/
  help : Option String
deriving DecidableEq, Repr

/-- Something on the error stream. -/
inductive Remark where
  | line (text : String)
  | log (record : LogRecord)
  | report (report : Report)
deriving DecidableEq, Repr

def severityColour : Severity → Colour
  | .error => .red
  | .warn => .yellow

/-- The word for a severity in a heading. -/
def severityTitle : Severity → String
  | .error => "Error"
  | .warn => "Warning"

def kindColour : TokenKind → Colour
  | .comment => .brightBlack
  | .command => .magenta
  | .option => .blue
  | .number | .boolean => .cyan
  | .string => .green
  | .selector | .tag | .scoreboard => .yellow
  | .position => .brightCyan
  | .error => .red

def padded (width : Nat) (text : String) : String :=
  String.ofList (text.toList ++ List.replicate (width - text.length) ' ')

/-- The line of a token: its span, its kind and its value. -/
def tokenLine (t : Token) : String :=
  let line := toString t.span ++ " " ++ (kindColour t.kind).paint (padded 10 t.kind.name) ++ " " ++
    t.value.text
  String.ofList (Text.trimEnd line.toList)

/-- What is said at the source of a diagnostic: the named parts of its message or, without
any, the message. -/
def labelText (d : Diagnostic) : String :=
  match d.context with
  | none | some ⟨[], _⟩ => d.message
  | some c => ", ".intercalate (c.entries.map fun (name, value) => name ++ "=" ++ value)

def Report.ofDiagnostic (d : Diagnostic) : Report where
  heading := (severityColour d.severity).paint
    ("[" ++ d.id ++ "] " ++ severityTitle d.severity ++ ":") ++ " " ++ d.located
  label := labelText d
  help := d.explanation?

/-- What is shown of a diagnostic: a report or, where its source is not in the text, lines. -/
def diagnosticRemarks (index : LineIndex) (d : Diagnostic) : List Remark :=
  match d.range? index with
  | some _ => [.report (.ofDiagnostic d)]
  | none =>
    .line (toString d.severity ++ "[" ++ d.id ++ "]: " ++ d.located) ::
      d.explanation?.toList.map fun text => .line ("  = help: " ++ text)

/-- A number of things in a colour; nothing is said of none. -/
def counted (n : Nat) (noun : String) (colour : Colour) : List String :=
  if n = 0 then []
  else [colour.paint (toString n ++ " " ++ noun ++ (if n = 1 then "" else "s"))]

/-- The line that counts errors and warnings. -/
def summary (ds : List Diagnostic) : List Remark :=
  let errors := ds.countP (·.severity = .error)
  let parts := counted errors "error" .red ++ counted (ds.length - errors) "warning" .yellow
  if parts.isEmpty then [] else [.line (", ".intercalate parts)]

end CommandLine
end BedrockCommand

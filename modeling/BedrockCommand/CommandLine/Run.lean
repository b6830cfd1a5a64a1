import BedrockCommand.CommandLine.Arguments
import BedrockCommand.CommandLine.Report
import BedrockCommand.CommandLine.Settings
/-!
Carrying out what the command line asks for.
-/
namespace BedrockCommand.CommandLine

/-- What a run leaves behind. -/
structure RunResult where
  code : Nat
  output : String
  /-- What is on the error stream. -/
  remarks : List Remark
deriving DecidableEq, Repr

/-- A command file that has been read. -/
structure LoadedFile where
  settings : Settings
  text : String
  tokenized : Tokenized

/-- The text of a file, or of the standard input for a hyphen. -/
def sourceText (files : Files) (path : String) : Except Failure String := do
  let text ←
    if path = "-" then files.inputText.mapError .inputUnread
    else (files.text path).mapError (.fileUnread path)
  return String.ofList (Files.plainBreaks text.toList)

/-- Reads a command file, and tells what was logged on the way. -/
def readFile (files : Files) (path : String) (o : Overrides) :
    List LogRecord × Except Failure LoadedFile :=
  match Settings.resolve files o with
  | .error e => ([], .error e)
  | .ok s =>
    match sourceText files path with
    | .error e => ([s.record], .error e)
    | .ok text =>
      match tokenize text s.start s.version with
      | .error fault => ([s.record], .error (.faulty fault))
      | .ok t => (s.record :: t.log text s.start s.version, .ok ⟨s, text, t⟩)

def printed (v : JsonValue) : String :=
  v.pretty ++ "\n"

def printedLines (lines : List String) : String :=
  String.join (lines.map (· ++ "\n"))

/-- What is left of a run that comes to nothing. -/
def Failure.result (e : Failure) : OutputFormat → RunResult
  | .json =>
    ⟨1, printed (.object [("error", .string "command_failed"), ("message", .string e.message),
      ("success", .boolean false)]), []⟩
  | .pretty => ⟨1, "", [.line ("error: " ++ e.message)]⟩

/-- What is left when the tokens of a file are shown. -/
def LoadedFile.tokenizeResult (file : LoadedFile) : OutputFormat → RunResult
  | .json => ⟨0, printed file.tokenized.toJson, []⟩
  | .pretty =>
    ⟨0, printedLines (file.tokenized.tokens.map tokenLine),
      file.tokenized.warnings.map fun w => .line ("warning: " ++ toString w)⟩

/-- What is left when a file is checked. It is the errors in the file that decide the exit
code, and not what is reported of them. -/
def LoadedFile.checkResult (file : LoadedFile) (focus : Option Nat) (format : OutputFormat) :
    RunResult :=
  let ds := file.tokenized.reported file.settings.profile focus
  let code := if file.tokenized.hasErrors then 1 else 0
  match format with
  | .json => ⟨code, printed (.array (ds.map Diagnostic.toJson)), []⟩
  | .pretty =>
    let index := LineIndex.ofText file.text.toList file.settings.start
    let verdict := if file.tokenized.hasErrors then []
      else [.line ("check ok (" ++ toString file.settings.version ++ ")")]
    ⟨code, "", ds.flatMap (diagnosticRemarks index) ++ summary ds ++ verdict⟩

/-- What is left when a code is explained. -/
def explainResult (id : String) : OutputFormat → RunResult
  | .json =>
    ⟨0, printed (.object [("explanation", (explain? id).elim .null .string),
      ("id", .string id)]), []⟩
  | .pretty =>
    let line := match explain? id with
      | some text => Colour.cyan.paint id ++ ": " ++ text
      | none => id ++ ": (no explanation available)"
    ⟨0, printedLines [line], []⟩

/-- What is left when the versions are listed. -/
def versionsResult : OutputFormat → RunResult
  | .json =>
    ⟨0, printed (.object [("latest", .string (toString Version.latest)),
      ("versions", .array (Grammar.meaningfulVersions.map fun v => .string (toString v)))]), []⟩
  | .pretty =>
    ⟨0, printedLines (Grammar.meaningfulVersions.map fun v =>
      toString v ++ (if v = Version.latest then " (latest)" else "")), []⟩

/-- Whether a log line is shown: warnings always are, and with more detail all but traces. -/
def isShown (verbose : Bool) (r : LogRecord) : Bool :=
  (if verbose then LogLevel.debug else LogLevel.warn).weight ≤ r.level.weight

/-- What is left after a file has been read: the log, and what follows from the file. -/
def Request.afterReading (r : Request) (files : Files) (path : String) (o : Overrides)
    (next : LoadedFile → OutputFormat → RunResult) : RunResult :=
  let (log, file) := readFile files path o
  let result := match file with
    | .error e => e.result r.format
    | .ok file => next file r.format
  { result with remarks := (log.filter (isShown r.verbose)).map .log ++ result.remarks }

/-- Carries out a request. -/
def Request.result (r : Request) (files : Files) : RunResult :=
  match r.action with
  | .tokenize file o => r.afterReading files file o LoadedFile.tokenizeResult
  | .check file o focus => r.afterReading files file o (·.checkResult focus)
  | .explain id => explainResult id r.format
  | .versions => versionsResult r.format

def programVersion : String :=
  "mccmd 0.2.0"

/-- How the program is used. -/
def usage : List String :=
  ["Usage: mccmd [--output pretty|json] [--verbose] COMMAND",
    "",
    "Commands:",
    "  tokenize FILE   Print the token stream of a command file",
    "  check FILE      Report errors and warnings in a command file",
    "  explain ID      Explain a diagnostic ID",
    "  versions        List the game versions at which the grammar changes",
    "",
    "Options of tokenize and check:",
    "  --game-version VERSION  Game version whose grammar is used",
    "  --profile PATH          Tokenizer profile",
    "  --line NUMBER           Line number of the first line in the file",
    "  --column NUMBER         Column of the first character in the file",
    "  --focus-line NUMBER     Show only the first error on this line (check)"]

/-- What is left of a run whose arguments are not a request. -/
def Stop.result : Stop → RunResult
  | .help => ⟨0, printedLines usage, []⟩
  | .version => ⟨0, printedLines [programVersion], []⟩
  | .misuse => ⟨2, "", usage.map .line⟩

/-- Runs the program. -/
def run (files : Files) (args : List String) : RunResult :=
  match Request.ofArguments args with
  | .error stop => stop.result
  | .ok request => request.result files

end BedrockCommand.CommandLine

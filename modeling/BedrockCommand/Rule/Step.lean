import BedrockCommand.Argument
/-!
Steps: what a grammar rule does from a place in a line. A step reports tokens and warnings and
moves on, gives up, or fails for a reason that lies in the grammar itself and not in the text.
-/
namespace BedrockCommand

/-- Something worth a line in a log. -/
inductive Notice where
  /-- A command was recognized, by the name that was typed. -/
  | commandRead (span : Span) (name typed : String)
  /-- A command was not read because it lies too deep in others. -/
  | commandTooDeep (place : Position) (limit : Nat)
  /-- A JSON value was not read because it lies too deep in others. -/
  | jsonTooDeep (place : Position) (limit : Nat)
deriving DecidableEq, Repr

/-- What a step reports. -/
inductive Event where
  | token (token : Token)
  | warning (warning : Warning)
  | notice (notice : Notice)
  /-- The last argument of a line, which starts at a place, was read as JSON. -/
  | json (place : Position)
deriving DecidableEq, Repr

/-- A defect of the grammar. -/
inductive Fault where
  /-- A token ends before it starts. -/
  | reversed (span : ReversedSpan)
  /-- A token has no kind. -/
  | kindless (span : Span)
  /-- A selector option has no rule for its value. -/
  | unlistedOption (name : String)
  /-- A repetition goes on without reading anything. -/
  | endless
deriving DecidableEq, Repr

/-- What is said about a defect. -/
def Fault.message : Fault → String
  | reversed span => span.message
  | kindless span => "token at " ++ toString span ++ " was finished without a kind"
  | unlistedOption name =>
    "internal error: entered unreachable code: selector option " ++ Text.quote name ++
      " has no value grammar"
  | endless => "a repetition reads nothing"

/-- How a step ends. -/
inductive Outcome where
  /-- The rule is satisfied, if need be after reporting what is wrong. -/
  | done
  /-- The rule gives up; what is wrong has been reported. -/
  | halted
  | failed (fault : Fault)
deriving DecidableEq, Repr

/-- What a rule reports, the entries that it marks for the list around it, how it ends, and
where. -/
structure Step where
  events : List Event
  marks : List String
  outcome : Outcome
  cursor : Cursor
deriving DecidableEq, Repr

namespace Step

def done (c : Cursor) : Step := ⟨[], [], .done, c⟩

def halt (c : Cursor) : Step := ⟨[], [], .halted, c⟩

/-- A defect of the grammar. -/
def fail (f : Fault) (c : Cursor) : Step := ⟨[], [], .failed f, c⟩

/-- One step after another, unless the first one gives up or fails. -/
def andThen (s : Step) (next : Cursor → Step) : Step :=
  match s.outcome with
  | .done =>
    let t := next s.cursor
    { t with events := s.events ++ t.events, marks := s.marks ++ t.marks }
  | _ => s

/-- The same step, satisfied where it gave up. -/
def settle (s : Step) : Step :=
  match s.outcome with
  | .halted => { s with outcome := .done }
  | _ => s

/-- The same step without its marks. -/
def unmarked (s : Step) : Step :=
  { s with marks := [] }

/-- Reports something and stays. -/
def report (e : Event) (c : Cursor) : Step := ⟨[e], [], .done, c⟩

/-- Reports something about the source between two places. -/
def between (start stop : Cursor) (events : Span → List Event) : Step :=
  match Span.between start.position stop.position with
  | .error r => fail (.reversed r) stop
  | .ok span => ⟨events span, [], .done, stop⟩

/-- A warning about a span, if there is one. -/
def warningEvents (warning : Option WarningKind) (span : Span) : List Event :=
  (warning.map fun w => .warning ⟨w, span⟩).toList

/-- A token between two places, with a warning about it or without. By the time that its text is
read, its kind has to be known. -/
def token (kind : Option TokenKind) (value : TokenValue) (warning : Option WarningKind)
    (start stop : Cursor) : Step :=
  match kind, Span.between start.position stop.position with
  | _, .error r => fail (.reversed r) stop
  | none, .ok span => fail (.kindless span) stop
  | some kind, .ok span =>
    ⟨.token ⟨kind, value, span⟩ :: warningEvents warning span, [], .done, stop⟩

/-- An error between two places. -/
def error (e : SyntaxError) (start stop : Cursor) : Step :=
  token (some .error) (.error e) none start stop

def complain (e : SyntaxError) (c : Cursor) : Step :=
  error e c c

/-- An error at a place, after which the rule gives up. -/
def refuse (e : SyntaxError) (c : Cursor) : Step :=
  (complain e c).andThen halt

/-- An error up to the end of the line. -/
def sweep (e : SyntaxError) (c : Cursor) : Step :=
  error e c c.toLineEnd

def argument (a : Argument) (c : Cursor) (next : a.Answer → Cursor → Step) : Step :=
  let r := a.read c
  (token r.kind r.value r.warning c r.cursor).andThen fun c' =>
    match r.answer with
    | some x => next x c'
    | none => halt c'

/-- Reads a given character and the spaces after it. -/
def expect (x : Char) (c : Cursor) : Step :=
  match Reader.symbol x c with
  | (.ok _, c') => done c'
  | (.error e, c') => refuse e c'

end Step
end BedrockCommand

import BedrockCommand.Tokenize
/-!
The log of a run: what was noted while a file was read, as lines with a level.
-/
namespace BedrockCommand

/-- How much a log line matters. -/
inductive LogLevel where
  | trace
  | debug
  | warn
deriving DecidableEq, Repr

namespace LogLevel

def name : LogLevel → String
  | trace => "TRACE"
  | debug => "DEBUG"
  | warn => "WARN"

/-- A number that is greater for a level that matters more. -/
def weight : LogLevel → Nat
  | trace => 0
  | debug => 1
  | warn => 2

end LogLevel

structure LogRecord where
  level : LogLevel
  /-- The part of the program that speaks. -/
  source : String
  message : String
deriving DecidableEq, Repr

/-- A log line as it is shown: the level in five columns, the part of the program, and what it
says. -/
def LogRecord.line (r : LogRecord) : String :=
  let gap := String.ofList (List.replicate (5 - r.level.name.length) ' ')
  "[" ++ r.level.name ++ gap ++ " " ++ r.source ++ "] " ++ r.message

/-- The log line for something noted. -/
def Notice.record : Notice → LogRecord
  | commandRead span name typed =>
    ⟨.trace, "mccmd_core::grammar::tokenizer",
      toString span ++ ": " ++ name ++ " (typed " ++ Text.quote typed ++ ")"⟩
  | commandTooDeep place limit =>
    ⟨.warn, "mccmd_core::grammar::tokenizer",
      toString place ++ ": commands nested deeper than " ++ toString limit ++
        "; skipping rest of line"⟩
  | jsonTooDeep place limit =>
    ⟨.warn, "mccmd_core::grammar::json",
      toString place ++ ": JSON nested deeper than " ++ toString limit ++
        "; skipping rest of value"⟩

/-- How many lines a text has; a line break at its end starts no line. -/
def countLines (text : String) : Nat :=
  let lines := splitLines text.toList
  if lines.getLast? = some [] then lines.length - 1 else lines.length

/-- The log of reading a file: what was noted, and a summary. -/
def Tokenized.log (t : Tokenized) (text : String) (start : Position) (version : Version) :
    List LogRecord :=
  t.notices.map Notice.record ++
    [⟨.debug, "mccmd_core",
      "tokenized " ++ toString (countLines text) ++ " line(s) from " ++ toString start ++ " for " ++
        toString version ++ ": " ++ toString t.tokens.length ++ " token(s), " ++
        toString t.warnings.length ++ " warning(s)"⟩]

end BedrockCommand

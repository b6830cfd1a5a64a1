import BedrockCommand.Diagnostic.Json
import BedrockCommand.Tokenize
/-!
The JSON records of tokens and of whole command files.
-/
namespace BedrockCommand

/-- The record of a token's value: a name where there is none, or else an object with one
field. -/
def TokenValue.toJson : TokenValue → JsonValue
  | none => .string "none"
  | number x => .object [("number", .number x)]
  | boolean b => .object [("boolean", .boolean b)]
  | command name => .object [("command", .string name)]
  | error e => .object [("error", e.toJson)]

def Token.toJson (t : Token) : JsonValue :=
  .object [("kind", .string t.kind.name), ("value", t.value.toJson), ("span", t.span.toJson)]

/-- The record of the tokens and warnings of a command file. -/
def Tokenized.toJson (t : Tokenized) : JsonValue :=
  .object [
    ("tokens", .array (t.tokens.map Token.toJson)),
    ("warnings", .array (t.warnings.map Warning.toJson))]

end BedrockCommand

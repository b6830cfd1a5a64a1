import BedrockCommand.Diagnostic.SyntaxError
import BedrockCommand.Source.Position
/-!
Tokens: classified stretches of source.
-/
namespace BedrockCommand

/-- What a token is. -/
inductive TokenKind where
  | comment
  /-- The keyword of a command. -/
  | command
  /-- A keyword argument or the name of an option. -/
  | option
  | number
  /-- A word, a quoted string, an identifier or free text. -/
  | string
  | boolean
  /-- A target selector or the name of a player. -/
  | selector
  | scoreboard
  | tag
  /-- A part of a position or of a rotation. -/
  | position
  /-- Source that the grammar does not accept. -/
  | error
deriving DecidableEq, Repr, Inhabited

def TokenKind.name : TokenKind → String
  | comment => "comment"
  | command => "command"
  | option => "option"
  | number => "number"
  | string => "string"
  | boolean => "boolean"
  | selector => "selector"
  | scoreboard => "scoreboard"
  | tag => "tag"
  | position => "position"
  | error => "error"

/-- What a token says beyond its kind. -/
inductive TokenValue where
  | none
  | number (value : Binary64)
  | boolean (value : Bool)
  /-- The name of a command after its abbreviations are resolved. -/
  | command (name : String)
  /-- Why the source is not accepted. -/
  | error (cause : SyntaxError)
deriving DecidableEq, Repr, Inhabited

/-- The value as text; no value is no text. -/
def TokenValue.text : TokenValue → String
  | none => ""
  | number x => toString x
  | boolean b => if b then "true" else "false"
  | command name => name
  | error e => e.message

/-- A classified stretch of source. -/
structure Token where
  kind : TokenKind
  value : TokenValue
  span : Span
deriving DecidableEq, Repr, Inhabited

namespace Token

/-- Why a token is not accepted, if it is not. -/
def error? (t : Token) : Option SyntaxError :=
  match t.value with
  | .error e => some e
  | _ => none

def isError (t : Token) : Bool :=
  t.kind = .error

/-- The span with the kind and the value, or with the message of an error. -/
def text (t : Token) : String :=
  match t.value with
  | .error e => toString t.span ++ ": " ++ e.message
  | .none => toString t.span ++ " " ++ t.kind.name
  | v => toString t.span ++ " " ++ t.kind.name ++ " " ++ v.text

instance : ToString Token := ⟨text⟩

end Token
end BedrockCommand

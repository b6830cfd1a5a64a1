import BedrockCommand.Source.Position
/-!
Findings that leave a command valid.
-/
namespace BedrockCommand

/-- What a warning flags. -/
inductive WarningKind where
  /-- The command, named as it was typed, needs a permission that function files lack. -/
  | noPermission (command : String)
  /-- A `hasitem` data value is negative. -/
  | negativeHasitemData
  | blockData
deriving DecidableEq, Repr, Inhabited

namespace WarningKind

def message : WarningKind → String
  | noPermission command =>
    "\"" ++ command ++ "\" requires a higher permission level than function files have"
  | negativeHasitemData => "negative hasitem data matches every data value and is unreliable"
  | blockData => "block data values are deprecated; use block states instead"

def code : WarningKind → String
  | noPermission _ => "MCC2001"
  | negativeHasitemData => "MCC2002"
  | blockData => "MCC2003"

/-- The named parts of the message. -/
def parameters : WarningKind → List (String × String)
  | noPermission command => [("command", command)]
  | _ => []

def kindName : WarningKind → String
  | noPermission _ => "no_permission"
  | negativeHasitemData => "dangerous_hasitem_data"
  | blockData => "block_data"

end WarningKind

/-- A warning and the source that it is about. -/
structure Warning where
  kind : WarningKind
  span : Span
deriving DecidableEq, Repr, Inhabited

instance : ToString Warning where
  toString w := toString w.span ++ ": " ++ w.kind.message

end BedrockCommand

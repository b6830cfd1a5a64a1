import BedrockCommand.Text.Unprintable
/-!
Words shown inside messages: between quotes, with everything that a reader could not see
written as an escape.
-/
namespace BedrockCommand.Text

/-- One character of quoted text. The quote that delimits the text and the backslash get a
backslash in front; the other escapes are for characters that do not show. -/
def escaped (delimiter : Char) (c : Char) : List Char :=
  if c = delimiter ∨ c = '\\' then ['\\', c]
  else if c = '\n' then ['\\', 'n']
  else if c = '\r' then ['\\', 'r']
  else if c = '\t' then ['\\', 't']
  else if c = '\x00' then ['\\', '0']
  else if isUnprintable c then
    ['\\', 'u', '\x7b'] ++ Nat.toDigits 16 c.toNat ++ ['\x7d']
  else [c]

/-- A word between double quotes. -/
def quote (word : String) : String :=
  String.ofList (['"'] ++ word.toList.flatMap (escaped '"') ++ ['"'])

/-- A character between single quotes. -/
def quoteChar (c : Char) : String :=
  String.ofList (['\''] ++ escaped '\'' c ++ ['\''])

/-- Keywords as a message lists them: each between single quotes, with commas. -/
def listed (keywords : List String) : String :=
  ", ".intercalate (keywords.map fun k => "'" ++ k ++ "'")

end BedrockCommand.Text

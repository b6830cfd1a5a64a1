/-!
Coloured text for terminals.
-/
namespace BedrockCommand

/-- The colours of a terminal that are in use here. -/
inductive Colour where
  | red
  | green
  | yellow
  | blue
  | magenta
  | cyan
  | brightBlack
  | brightCyan
deriving DecidableEq, Repr

namespace Colour

/-- The number that stands for a colour in the text. -/
def code : Colour → Nat
  | red => 31
  | green => 32
  | yellow => 33
  | blue => 34
  | magenta => 35
  | cyan => 36
  | brightBlack => 90
  | brightCyan => 96

def paint (c : Colour) (text : String) : String :=
  "\x1b[" ++ toString c.code ++ "m" ++ text ++ "\x1b[0m"

end Colour
end BedrockCommand

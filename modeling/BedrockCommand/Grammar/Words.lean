import BedrockCommand.Rule.Run
/-!
The rules that many commands share: single arguments and short sequences of them.
-/
namespace BedrockCommand.Rule

def identifier : Rule := argument .identifier

def word : Rule := argument .word

/-- A word or a quoted string. -/
def text : Rule := argument (.text .string)

def objective : Rule := argument (.text .scoreboard)

/-- `true` or `false`. -/
def flag : Rule := argument .boolean

def anyInteger : Rule := argument (.integer Numeral.minInt none)

def integerBetween (least greatest : Int) : Rule := argument (.integer least (some greatest))

/-- An integer that is not too small. -/
def integerFrom (least : Int) : Rule := argument (.integer least none)

def anyNumber : Rule := argument (.number none)

def numberBetween (least greatest : Binary64) : Rule :=
  argument (.number (some (least, some greatest)))

/-- A number that is not too small. -/
def numberFrom (least : Binary64) : Rule := argument (.number (some (least, none)))

def range : Rule := argument .range

/-- So many coordinates of one position, after some others. -/
def coordinates : Nat → List Reader.Anchor → Rule
  | 0, _ => .done
  | n + 1, earlier => .read (.coordinate earlier) fun a => coordinates n (a :: earlier)

def position : Rule := coordinates 3 []

/-- An angle; the spaces after a lone tilde belong to no token. -/
def angle : Rule := .read .angle fun _ => .spaces .done

/-- What is left of the line, as a message. -/
def message : Rule := argument (.line .expectedMessage)

/-- What is left of the line, as the path of a function. -/
def functionPath : Rule := argument (.line .expectedFunctionPath)

/-- A position, or a text if no coordinate comes next. -/
def positionOrText : Rule := .look .coordinate position text

/-- The center and the radius of a circle. -/
def circle : Rule := position ++ integerFrom 0

/-- The event with which an entity appears: an identifier, or a star for the usual one. -/
def spawnEvent : Rule := .look (.char '*') (argument (.star .string)) identifier

/-- A game mode, by its number or its name. -/
def gameMode : Rule :=
  .look .number (argument .gameMode)
    (oneOf ["s", "c", "a", "d", "survival", "default", "creative", "adventure"])

def permissionState : Rule := argument .permissionState

/-- The permissions that a player can be given. -/
def permissions : List String := ["camera", "movement"]

end BedrockCommand.Rule

import BedrockCommand.Grammar.Json
import BedrockCommand.Grammar.Selector
/-!
Commands that tell, show or play something, and those that manage the server.
-/
namespace BedrockCommand.Rule

/-- `dialogue change <npc> <scene> [players]` or `dialogue open <npc> <player> [scene]` -/
def dialogue : Rule :=
  cases [
    ("change", target ++ text ++ chain [target]),
    ("open", target ++ target ++ chain [text])]

/-- `help [command | page]` -/
def help : Rule :=
  chain [.look .number anyInteger word]

def volume : Rule :=
  numberBetween 0 1

/-- The seconds over which music fades. -/
def fade : Rule :=
  numberBetween 0 10

/-- `music play <track> ...` -/
def musicTrack : Rule :=
  text ++ chain [volume, fade, oneOf ["play_once", "loop"]]

/-- `music <play | queue | stop | volume> ...` -/
def music : Rule :=
  cases [("play", musicTrack), ("queue", musicTrack), ("stop", chain [fade]), ("volume", volume)]

/-- `playsound <sound> [player] [position] [volume] [pitch] [minimum volume]` -/
def playsound : Rule :=
  text ++ chain [target, position, numberFrom 0, numberBetween 0 256, numberFrom 0]

/-- `save <hold | query | resume>` -/
def save : Rule :=
  oneOf ["hold", "query", "resume"]

/-- `stopsound <player> [sound]` -/
def stopsound : Rule :=
  target ++ chain [text]

/-- `tell <player> <message>` -/
def tell : Rule :=
  target ++ message

/-- `tellraw <player> <json>` -/
def tellraw : Rule :=
  target ++ json .object

def titleWith (content : Rule) : Rule :=
  target ++ cases [
    ("clear", .done),
    ("reset", .done),
    ("title", content),
    ("subtitle", content),
    ("actionbar", content),
    ("times", anyInteger ++ anyInteger ++ anyInteger)]

/-- `title <player> <mode> ...` -/
def title : Rule :=
  titleWith message

/-- `titleraw <player> <mode> ...` -/
def titleraw : Rule :=
  titleWith (json .object)

/-- `whitelist <mode> [player]` -/
def whitelist : Rule :=
  cases [
    ("add", target),
    ("list", .done),
    ("off", .done),
    ("on", .done),
    ("reload", .done),
    ("remove", target)]

/-- `wsserver <out | address>` -/
def wsserver : Rule :=
  argument (.lineOr ["out"])

end BedrockCommand.Rule

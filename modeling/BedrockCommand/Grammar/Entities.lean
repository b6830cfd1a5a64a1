import BedrockCommand.Grammar.Json
import BedrockCommand.Grammar.Selector
/-!
Commands about entities: where they are, what they ride, carry and do.
-/
namespace BedrockCommand.Rule

/-- `event entity <target> <event>` -/
def event : Rule :=
  oneOf ["entity"] ++ target ++ text

/-- A slot of a container or of an entity, without its number. -/
def containerSlot : Rule :=
  cases [
    ("block", position ++ oneOf ["slot.container"]),
    ("entity", target ++ word)]

/-- `loot <where> <kill | loot> <source> [tool]` -/
def loot : Rule :=
  cases [
    ("spawn", position),
    ("give", target),
    ("insert", position),
    ("replace", containerSlot ++ anyInteger ++ .look .number (integerFrom 1) .done)] ++
  cases [("kill", target), ("loot", text)] ++
  chain [argument (.textOr ["mainhand", "offhand"])]

/-- `playanimation <entity> <animation> [next state] [blend out time] [stop expression]
[controller]` -/
def playanimation : Rule :=
  target ++ text ++ chain [text, anyNumber, text, text]

/-- `replaceitem <slot> <number> [destroy | keep] <item> [amount] [data] [components]` -/
def replaceitem : Rule :=
  containerSlot ++ anyInteger ++
    (.read (.identifierOr ["destroy", "keep"]) fun
      | some _ => identifier
      | none => .done) ++
    chain [integerBetween 1 64, integerBetween 0 32767, json .object]

/-- `ride <riders> <mode> ...` -/
def ride : Rule :=
  target ++ cases [
    ("start_riding", target ++ chain [
      oneOf ["teleport_ride", "teleport_rider"],
      oneOf ["if_group_fits", "until_full"]]),
    ("stop_riding", .done),
    ("evict_riders", .done),
    ("summon_rider", identifier ++ chain [spawnEvent, text]),
    ("summon_ride", identifier ++ chain [
      oneOf ["skip_riders", "no_ride_change", "reassign_rides"],
      spawnEvent,
      text])]

/-- `spreadplayers <x> <z> <distance> <range> <target>` -/
def spreadplayers : Rule :=
  coordinates 2 [] ++ .read (.number (some (0, none))) fun distance =>
    argument (.spreadRange distance) ++ target

/-- `summon <entity> [position] [event] [name]` or `summon <entity> [name] [position]` -/
def summon : Rule :=
  identifier ++ chain [
    .look .coordinate (position ++ chain [spawnEvent, text]) (text ++ chain [position])]

/-- `tag <entity> <add | remove> <tag>` or `tag <entity> list` -/
def tag : Rule :=
  starOrTarget ++ cases [
    ("add", argument (.text .tag)),
    ("remove", argument (.text .tag)),
    ("list", .done)]

/-- What follows a destination: an angle or two, or something to face, and whether to check
for blocks. Only after two angles or something to face may there be such a flag; a flag in
their place is the last argument. -/
def teleportTail : Rule :=
  .look .angle
    (angle ++ chain [angle ++ chain [flag]])
    (.read (.booleanOr ["facing"]) fun
      | some _ => .look .coordinate position target ++ chain [flag]
      | none => .done)

/-- A destination that is a position, and what follows it. -/
def teleportToPosition : Rule :=
  position ++ chain [teleportTail]

/-- `teleport [victim] <destination> ...`. A target alone is the destination. -/
def teleport : Rule :=
  .look .coordinate teleportToPosition <|
    target ++ chain [.look .coordinate teleportToPosition (target ++ chain [flag])]

end BedrockCommand.Rule

import BedrockCommand.Grammar.Block
import BedrockCommand.Grammar.Selector
/-!
Commands about the world: its blocks, areas, structures, rules and weather.
-/
namespace BedrockCommand.Rule

/-- `alwaysday [lock]` -/
def alwaysday : Rule :=
  chain [flag]

/-- How blocks are cloned where the clone overlaps them. -/
def cloneMode : Rule :=
  oneOf ["force", "move", "normal"]

/-- `clone <begin> <end> <destination> [mask] [mode] [block]` -/
def clone : Rule :=
  position ++ position ++ position ++ chain [
    cases [
      ("masked", chain [cloneMode]),
      ("replace", chain [cloneMode]),
      ("filtered", cloneMode ++ block)]]

/-- `difficulty <difficulty>`, by its number or its name -/
def difficulty : Rule :=
  .look .number (argument .difficulty)
    (oneOf ["easy", "normal", "hard", "peaceful", "p", "e", "n", "h"])

/-- `fill <from> <to> <block> [suffix] [mode]` -/
def fill : Rule :=
  position ++ position ++ identifier ++ chain [
    blockSuffix,
    cases [
      ("destroy", .done),
      ("hollow", .done),
      ("keep", .done),
      ("outline", .done),
      ("replace", chain [identifier, blockSuffix])]]

/-- `fog <player> <mode> <setting> ...` -/
def fog : Rule :=
  target ++ cases [("push", identifier), ("pop", .done), ("remove", .done)] ++ text

/-- `gamerule [rule] [value]` -/
def gamerule : Rule :=
  chain [word, .look .number anyInteger flag]

/-- `locate <biome | structure> <name> [new chunks only]` -/
def locate : Rule :=
  cases [("biome", identifier), ("structure", identifier ++ chain [flag])]

/-- `mobevent <event> [flag]` -/
def mobevent : Rule :=
  identifier ++ chain [flag]

/-- `particle <effect> [position]` -/
def particle : Rule :=
  identifier ++ chain [position]

/-- `schedule on_area_loaded add <area> <function>` -/
def schedule : Rule :=
  oneOf ["on_area_loaded"] ++ oneOf ["add"] ++
    .look .coordinate (position ++ position)
      (cases [("circle", circle), ("tickingarea", text)]) ++
    functionPath

/-- `setblock <position> <block> [suffix] [mode]` -/
def setblock : Rule :=
  position ++ identifier ++ chain [blockSuffix, oneOf ["destroy", "keep", "replace"]]

/-- `setmaxplayers <count>` -/
def setmaxplayers : Rule :=
  integerBetween 1 30

/-- `setworldspawn [position]` -/
def setworldspawn : Rule :=
  chain [position]

/-- Where the blocks of a structure are kept. -/
def saveMode : Rule :=
  oneOf ["memory", "disk"]

/-- The arguments after the corners of a structure to save: whether to include entities, where
to keep it, and whether to include blocks; or where to keep it alone. -/
def structureSaveTail : Rule :=
  .read (.booleanOr ["memory", "disk"]) fun
    | some _ => .done
    | none => chain [saveMode, flag]

/-- Whether to include blocks, the integrity and the seed of a structure to load. -/
def structureLoadFlags : Rule :=
  flag ++ chain [numberBetween 0 1, text]

/-- The arguments after the mirror axis of a structure to load. The first one is a way to
animate it, or else whether to include entities. -/
def structureLoadTail : Rule :=
  .read (.booleanOr ["block_by_block", "layer_by_layer"]) fun
    | some _ => chain [numberFrom 0, flag, structureLoadFlags]
    | none => chain [structureLoadFlags]

/-- `structure <save | load | delete> <name> ...` -/
def structures : Rule :=
  cases [
    ("save", text ++ position ++ position ++ chain [structureSaveTail]),
    ("load", text ++ position ++ chain [
      oneOf ["0_degrees", "90_degrees", "180_degrees", "270_degrees"],
      oneOf ["none", "x", "z", "xz"],
      structureLoadTail]),
    ("delete", text)]

/-- `testforblock <position> <block> [suffix]` -/
def testforblock : Rule :=
  position ++ identifier ++ chain [blockSuffix]

/-- `testforblocks <begin> <end> <destination> [mode]` -/
def testforblocks : Rule :=
  position ++ position ++ position ++ chain [oneOf ["masked", "all"]]

/-- The areas of one dimension or of all. -/
def areaList : Rule :=
  chain [oneOf ["all-dimensions"]]

/-- `tickingarea <mode> ...` -/
def tickingarea : Rule :=
  cases [
    ("add", .look .coordinate (position ++ position) (oneOf ["circle"] ++ circle) ++
      chain [text, flag]),
    ("remove", positionOrText),
    ("remove_all", .done),
    ("preload", positionOrText ++ chain [flag]),
    ("list", areaList)]

/-- `time <add | query | set> <time>` -/
def time : Rule :=
  cases [
    ("add", anyInteger),
    ("query", oneOf ["daytime", "gametime", "day"]),
    ("set", .look .number anyInteger
      (oneOf ["day", "noon", "sunrise", "sunset", "night", "midnight"]))]

/-- `volumearea <mode> ...` -/
def volumearea : Rule :=
  cases [
    ("add", text ++ position ++ position ++ chain [text]),
    ("list", areaList),
    ("remove", positionOrText),
    ("remove_all", .done)]

/-- How long a kind of weather may last. -/
def weatherDuration : Rule :=
  chain [integerBetween 0 1000000]

/-- `weather <weather> [duration]` or `weather query` -/
def weather : Rule :=
  cases [
    ("clear", weatherDuration),
    ("rain", weatherDuration),
    ("thunder", weatherDuration),
    ("query", .done)]

end BedrockCommand.Rule

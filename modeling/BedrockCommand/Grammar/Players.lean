import BedrockCommand.Grammar.Json
import BedrockCommand.Grammar.Selector
/-!
Commands about players: what they may do, have and see.
-/
namespace BedrockCommand.Rule

/-- `ability <player> [<ability> <flag>]` -/
def ability : Rule :=
  target ++ chain [oneOf ["worldbuilder", "mayfly", "mute"] ++ flag]

/-- `camerashake add <player> [intensity] [seconds] [type]` or `camerashake stop [player]` -/
def camerashake : Rule :=
  cases [
    ("add", target ++
      chain [numberBetween 0 4, anyNumber, oneOf ["positional", "rotational"]]),
    ("stop", chain [target])]

/-- `clear [player] [item] [data] [count]` -/
def clear : Rule :=
  chain [target, identifier, integerFrom (-1), integerFrom (-1)]

/-- A target that may be left out. -/
def optionalTarget : Rule :=
  chain [target]

/-- `damage <target> <amount> [<cause> [entity <damager>]]` -/
def damage : Rule :=
  target ++ integerFrom 0 ++ chain [word, oneOf ["entity"] ++ target]

/-- `effect <target> clear` or `effect <target> <effect> [seconds] [amplifier] [hidden]` -/
def effect : Rule :=
  target ++ .read (.identifierOr ["clear"]) fun
    | some _ => .done
    | none => chain [integerFrom 0, integerBetween 0 255, flag]

/-- `enchant <target> <enchantment> [level]`, the enchantment by its number or its name -/
def enchant : Rule :=
  target ++ .look .number anyInteger identifier ++ chain [anyInteger]

/-- `gamemode <mode> [player]` -/
def setGameMode : Rule :=
  gameMode ++ chain [target]

/-- `give <player> <item> [amount] [data] [components]` -/
def give : Rule :=
  target ++ identifier ++ chain [integerBetween 1 32767, integerBetween 0 32767, json .object]

/-- `inputpermission query <player> <permission> [state]` or
`inputpermission set <player> <permission> <state>` -/
def inputpermission : Rule :=
  keyword ["query", "set"] fun mode =>
    target ++ oneOf permissions ++
      (if mode = "set" then permissionState else chain [permissionState])

/-- `kick <player> [reason]` -/
def kick : Rule :=
  target ++ chain [message]

/-- `spawnpoint [player] [position]` -/
def spawnpoint : Rule :=
  chain [target, position]

/-- `xp <amount>[L] [player]` -/
def xp : Rule :=
  argument .experience ++ chain [target]

end BedrockCommand.Rule

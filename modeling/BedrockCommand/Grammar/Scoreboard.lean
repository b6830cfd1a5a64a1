import BedrockCommand.Grammar.Selector
/-!
`scoreboard`: objectives, and the scores that players have in them.
-/
namespace BedrockCommand.Rule

/-- `scoreboard objectives ...` -/
def objectives : Rule :=
  cases [
    ("add", objective ++ oneOf ["dummy"] ++ chain [text]),
    ("list", .done),
    ("remove", objective),
    ("setdisplay", keyword ["list", "sidebar", "belowname"] fun slot =>
      if slot = "belowname" then chain [objective]
      else chain [objective, oneOf ["ascending", "descending"]])]

/-- A new score or a change of one. -/
def scoreChange : Rule :=
  starOrTarget ++ objective ++ anyInteger

def scoreOperation : Rule :=
  starOrTarget ++ objective ++
    (.read .scoreOperator fun _ => .spaces (starOrTarget ++ objective))

/-- A random score between two bounds. -/
def scoreRandom : Rule :=
  starOrTarget ++ objective ++
    .read (.integer Numeral.minInt none) fun least => argument (.randomMaximum least)

/-- A score between two bounds, the upper one of which may be left out. -/
def scoreTest : Rule :=
  starOrTarget ++ objective ++
    .read (.scoreBound none) fun least => chain [argument (.scoreBound least)]

/-- `scoreboard players ...` -/
def players : Rule :=
  cases [
    ("set", scoreChange),
    ("add", scoreChange),
    ("remove", scoreChange),
    ("list", chain [starOrTarget]),
    ("operation", scoreOperation),
    ("random", scoreRandom),
    ("reset", starOrTarget ++ chain [objective]),
    ("test", scoreTest)]

/-- `scoreboard <objectives | players> ...` -/
def scoreboard : Rule :=
  cases [("objectives", objectives), ("players", players)]

end BedrockCommand.Rule

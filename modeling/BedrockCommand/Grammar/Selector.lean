import BedrockCommand.Grammar.Words
/-!
Target selectors: the name of a player, or a variable with options that narrow it down.
-/
namespace BedrockCommand.Rule

/-- An entry of a `hasitem` object. The entry for the item is marked. What follows an unknown
key is left to the list. -/
def hasitemEntry : Rule :=
  .read .hasitemKey fun
    | none => .done
    | some "item" => .mark "item" (.expect '=' identifier)
    | some "data" => .expect '=' (argument .hasitemData)
    | some "location" => .expect '=' word
    | some _ => .expect '=' range

/-- An object that describes an item in the inventory; it has to name the item. -/
def hasitemObject : Rule :=
  .list .curly false hasitemEntry fun entries =>
    if entries.isEmpty then .complain .missingHasitemItem .done else .done

/-- One such object, or a list of them. -/
def hasitem : Rule :=
  .look (.char '[') (.list .square false hasitemObject fun _ => .done) hasitemObject

/-- The scores that an entity has to have. -/
def scores : Rule :=
  .list .curly false (objective ++ .expect '=' range) fun _ => .done

/-- The permissions that a player has to have. -/
def haspermission : Rule :=
  .list .curly false (oneOf permissions ++ .expect '=' permissionState) fun _ => .done

/-- A tag that an entity has to have. Nothing at all stands for having no tag. -/
def selectorTag : Rule :=
  .negation (.look .text (argument (.text .tag)) .done)

/-- The rule for the value of each selector option. -/
def selectorValues : List (String × Rule) :=
  [("x", argument .selectorCoordinate),
   ("y", argument .selectorCoordinate),
   ("z", argument .selectorCoordinate),
   ("dx", anyNumber),
   ("dy", anyNumber),
   ("dz", anyNumber),
   ("r", numberFrom 0),
   ("rm", numberFrom 0),
   ("scores", scores),
   ("tag", selectorTag),
   ("name", .negation text),
   ("type", .negation identifier),
   ("family", .negation text),
   ("rx", anyNumber),
   ("rxm", anyNumber),
   ("ry", anyNumber),
   ("rym", anyNumber),
   ("hasitem", hasitem),
   ("l", integerFrom 0),
   ("lm", integerFrom 0),
   ("m", gameMode),
   ("c", anyInteger),
   ("haspermission", haspermission)]

def selectorValue (name : String) : Rule :=
  (selectorValues.lookup name).getD (.fault (.unlistedOption name))

def selectorEntry : Rule :=
  .ask fun d => .read (.selectorOption d.selectorOptions) fun name =>
    .expect '=' (selectorValue name)

/-- The name of a player, or a selector. -/
def target : Rule :=
  .look (.char '@')
    (.read .selectorVariable fun _ =>
      .look (.char '[') (.list .square false selectorEntry fun _ => .spaces .done)
        (.spaces .done))
    (argument (.text .selector))

/-- A target, or a star for all that have a score. -/
def starOrTarget : Rule :=
  .look (.char '*') (argument (.star .selector)) target

end BedrockCommand.Rule

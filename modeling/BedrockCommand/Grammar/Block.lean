import BedrockCommand.Grammar.Words
/-!
What follows the name of a block: its states or, in older versions, its data value.
-/
namespace BedrockCommand.Rule

def stateValue : Rule :=
  .look (.char '"') (argument .quoted) <|
  .look .number anyInteger <|
  argument .stateBoolean

/-- Block states by their names. -/
def blockStates : Rule :=
  .list .square true (.read .quotedKey fun _ => .expect ':' stateValue) fun _ => .done

def dataOrStates : Rule :=
  .look .number (argument .blockData) <|
  .look (.char '[') blockStates <|
  .refuseLine .expectedStatesOrData

def statesOnly : Rule :=
  .look (.char '[') blockStates <|
  .look .number (argument .staleBlockData) <|
  .done

/-- What may follow the name of a block in the version at hand. -/
def blockSuffix : Rule :=
  .ask fun d => match d.blockSuffix with
    | none => .done
    | some .dataOrStates => dataOrStates
    | some .states => statesOnly

/-- A block by its name, which must be followed by what the version wants there. -/
def block : Rule :=
  identifier ++ blockSuffix

end BedrockCommand.Rule

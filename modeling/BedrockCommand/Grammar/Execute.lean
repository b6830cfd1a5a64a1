import BedrockCommand.Grammar.Block
import BedrockCommand.Grammar.Selector
/-!
`execute`: another command, run by others and elsewhere. In older versions it names one
target and one position; in newer ones it is a chain of clauses.
-/
namespace BedrockCommand.Rule

/-- A check for a block, in the older form. -/
def detect : Rule :=
  oneOf ["detect"] ++ position ++ block

/-- The older form: a target, a position, a check or none, and the command. -/
def executeAt : Rule :=
  target ++ position ++ .look (.word "detect") detect .done ++ .nested .done

/-- The part of an entity from which it looks. -/
def anchor : Rule :=
  oneOf ["eyes", "feet"]

/-- Two scores compared, or a score and a range. -/
def scoreCondition : Rule :=
  target ++ objective ++
    .look .comparison
      (.read .comparison fun _ => .spaces (target ++ objective))
      (oneOf ["matches"] ++ range)

/-- What a clause may depend on. -/
def condition : Rule :=
  cases [
    ("block", position ++ identifier ++
      .look (.char '[') blockSuffix (.look .number blockSuffix .done)),
    ("blocks", position ++ position ++ position ++ oneOf ["all", "masked"]),
    ("entity", target),
    ("score", scoreCondition)]

/-- A target after `as`. -/
def asTarget : Rule :=
  oneOf ["as"] ++ target

/-- The clauses of the newer form. -/
def executeClauses : List (String × Rule) :=
  [("align", argument .axes),
   ("anchored", anchor),
   ("as", target),
   ("at", target),
   ("facing", .look .coordinate position (oneOf ["entity"] ++ target ++ anchor)),
   ("in", identifier),
   ("positioned", .look .coordinate position asTarget),
   ("rotated", .look .angle (angle ++ angle) asTarget),
   ("run", .nested .done),
   ("if", condition),
   ("unless", condition)]

/-- The clauses that may come last. -/
def finalClauses : List String :=
  ["run", "if", "unless"]

/-- The newer form: clauses up to the end of the line, the last one of which has to run
something or to test something. -/
def executeChain : Rule :=
  .clauses (executeClauses.map Prod.fst)
    (fun w => (executeClauses.lookup w).getD .done)
    fun
      | none => .complain .expectedSubcommand .done
      | some w => if w ∈ finalClauses then .done else .complain .wrongExecuteEnd .done

end BedrockCommand.Rule

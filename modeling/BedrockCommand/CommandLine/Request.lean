import BedrockCommand.Number.Numeral
/-!
What the command line asks for.
-/
namespace BedrockCommand.CommandLine

inductive OutputFormat where
  /-- Coloured lines for a reader. -/
  | pretty
  | json
deriving DecidableEq, Repr

def OutputFormat.ofName? (name : String) : Option OutputFormat :=
  if name = "pretty" then some .pretty
  else if name = "json" then some .json
  else none

/-- Where to find the settings for a file: in a profile, with some of them given directly. -/
structure Overrides where
  gameVersion : Option String
  profile : Option String
  /-- The number of the first line. -/
  line : Option Nat
  /-- The column of the first character. -/
  column : Option Nat
deriving DecidableEq, Repr

inductive Action where
  | tokenize (file : String) (overrides : Overrides)
  /-- Show what is wrong with a file, or only the first error on one of its lines. -/
  | check (file : String) (overrides : Overrides) (focus : Option Nat)
  /-- Say what a code means. -/
  | explain (id : String)
  /-- List the versions at which the grammar changes. -/
  | versions
deriving DecidableEq, Repr

/-- What is to be done, and how its result is shown. -/
structure Request where
  action : Action
  format : OutputFormat
  verbose : Bool
deriving DecidableEq, Repr

end BedrockCommand.CommandLine

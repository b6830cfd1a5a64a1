import BedrockCommand.CommandLine.Request
/-!
The arguments of the command line. Options and flags of the program stand before or after the
name of a subcommand; the options of a subcommand and its operands come after its name in any
order. Nothing may be given twice, though the program's own options may be given once on
either side of the name, and then the later one counts.
-/
namespace BedrockCommand.CommandLine

/-- What an argument looks like. -/
inductive Item where
  /-- A name, a path or the value of an option; also a single hyphen. -/
  | operand (text : String)
  /-- Two hyphens: everything after them is an operand. -/
  | divider
  /-- A name after two hyphens, with the text after an equals sign. -/
  | long (name : String) (value : Option String)
  /-- Letters after a hyphen. -/
  | short (letters : List Char)
deriving DecidableEq, Repr

namespace Item

/-- The item that an argument looks like. -/
def ofArgument (arg : String) : Item :=
  match arg.toList with
  | ['-'] => operand arg
  | ['-', '-'] => divider
  | '-' :: '-' :: body =>
    let name := String.ofList (body.takeWhile (· ≠ '='))
    match body.dropWhile (· ≠ '=') with
    | [] => long name none
    | _ :: value => long name (some (String.ofList value))
  | '-' :: letters => short letters
  | _ => operand arg

/-- Whether an argument can be the value of the option before it. -/
def isOperand : Item → Bool
  | operand _ => true
  | _ => false

end Item

/-- Why the arguments are not a request. -/
inductive Stop where
  /-- They ask how the program is used. -/
  | help
  /-- They ask for the version of the program. -/
  | version
  /-- They cannot be understood. -/
  | misuse
deriving DecidableEq, Repr

/-- The natural number of at most 64 bits that an argument denotes. -/
def natural? (text : String) : Option Nat :=
  Numeral.natural? (Nat.pow 2 64) text.toList

inductive ValueKind where
  | text
  | natural
  | format
deriving DecidableEq, Repr

def ValueKind.admits : ValueKind → String → Bool
  | text, _ => true
  | natural, value => (natural? value).isSome
  | format, value => (OutputFormat.ofName? value).isSome

structure Given where
  options : List (String × String)
  flags : List String
  operands : List String
deriving DecidableEq, Repr

def Given.nothing : Given :=
  ⟨[], [], []⟩

/-- What may be given before or after the name of a subcommand. -/
structure Level where
  options : List (String × ValueKind)
  /-- The flags by their letters. -/
  flags : List (Char × String)
  /-- How many operands there are; all are needed. -/
  operands : Nat
deriving DecidableEq, Repr

namespace Level

def takeOption (level : Level) (given : Given) (name value : String) : Except Stop Given :=
  match level.options.lookup name with
  | none => .error .misuse
  | some kind =>
    if kind.admits value ∧ (given.options.lookup name).isNone then
      .ok { given with options := (name, value) :: given.options }
    else .error .misuse

/-- Takes a flag. Two flags stop everything else. -/
def takeFlag (level : Level) (given : Given) (name : String) : Except Stop Given :=
  if !(level.flags.any (·.2 = name)) ∨ given.flags.contains name then .error .misuse
  else if name = "help" then .error .help
  else if name = "version" then .error .version
  else .ok { given with flags := name :: given.flags }

/-- Takes the flag of a letter. -/
def takeLetter (level : Level) (given : Given) (letter : Char) : Except Stop Given :=
  match level.flags.lookup letter with
  | none => .error .misuse
  | some name => level.takeFlag given name

/-- Takes arguments from the left, up to the first operand that is one too many. -/
def scan (level : Level) (given : Given) : List String → Except Stop (Given × List String)
  | [] => .ok (given, [])
  | arg :: rest =>
    match Item.ofArgument arg with
    | .operand text =>
      if given.operands.length < level.operands then
        scan level { given with operands := given.operands ++ [text] } rest
      else .ok (given, arg :: rest)
    | .divider =>
      if given.operands.length + rest.length ≤ level.operands then
        .ok ({ given with operands := given.operands ++ rest }, [])
      else .error .misuse
    | .short letters => do scan level (← letters.foldlM level.takeLetter given) rest
    | .long name (some value) => do scan level (← level.takeOption given name value) rest
    | .long name none =>
      match level.options.lookup name, rest with
      | none, rest => do scan level (← level.takeFlag given name) rest
      | some _, [] => .error .misuse
      | some _, value :: rest =>
        if (Item.ofArgument value).isOperand then do
          scan level (← level.takeOption given name value) rest
        else .error .misuse

end Level

/-- The names that stand for what can be done. -/
inductive Subcommand where
  | tokenize
  | check
  | explain
  | versions
deriving DecidableEq, Repr

def programOptions : List (String × ValueKind) :=
  [("output", .format)]

/-- The flags of the program that may stand on either side of a subcommand's name. -/
def programFlags : List (Char × String) :=
  [('v', "verbose"), ('h', "help")]

def programLevel : Level :=
  ⟨programOptions, programFlags ++ [('V', "version")], 0⟩

def fileOptions : List (String × ValueKind) :=
  [("game-version", .text), ("profile", .text), ("line", .natural), ("column", .natural)]

namespace Subcommand

def all : List Subcommand :=
  [tokenize, check, explain, versions]

def name : Subcommand → String
  | tokenize => "tokenize"
  | check => "check"
  | explain => "explain"
  | versions => "versions"

def ofName? (name : String) : Option Subcommand :=
  all.find? (·.name = name)

def level : Subcommand → Level
  | tokenize => ⟨fileOptions ++ programOptions, programFlags, 1⟩
  | check => ⟨fileOptions ++ [("focus-line", .natural)] ++ programOptions, programFlags, 1⟩
  | explain => ⟨programOptions, programFlags, 1⟩
  | versions => ⟨programOptions, programFlags, 0⟩

end Subcommand

namespace Given

def option? (given : Given) (name : String) : Option String :=
  given.options.lookup name

def naturalOption? (given : Given) (name : String) : Option Nat :=
  (given.option? name).bind natural?

def overrides (given : Given) : Overrides where
  gameVersion := given.option? "game-version"
  profile := given.option? "profile"
  line := given.naturalOption? "line"
  column := given.naturalOption? "column"

def action? (given : Given) (sub : Subcommand) : Option Action :=
  match sub, given.operands with
  | .tokenize, [file] => some (.tokenize file given.overrides)
  | .check, [file] => some (.check file given.overrides (given.naturalOption? "focus-line"))
  | .explain, [id] => some (.explain id)
  | .versions, [] => some .versions
  | _, _ => none

end Given

/-- Why arguments that begin with the word for help are not a request. -/
def helpOn : List String → Stop
  | [] => .help
  | name :: rest =>
    if (Subcommand.ofName? name).isSome ∧ rest.isEmpty ∨ name = "help" then .help else .misuse

/-- The request that arguments make. Output is JSON unless something else is asked for. -/
def Request.ofArguments (args : List String) : Except Stop Request := do
  let (before, rest) ← programLevel.scan .nothing args
  match rest with
  | [] => throw .misuse
  | name :: rest =>
    if name = "help" then throw (helpOn rest)
    match Subcommand.ofName? name with
    | none => throw .misuse
    | some sub =>
      let (after, extra) ← sub.level.scan .nothing rest
      match extra, after.action? sub with
      | [], some action =>
        let format := after.option? "output" <|> before.option? "output"
        return {
          action
          format := (format.bind OutputFormat.ofName?).getD .json
          verbose := (after.flags ++ before.flags).contains "verbose" }
      | _, _ => throw .misuse

end BedrockCommand.CommandLine

import BedrockCommand.Grammar.Table
/-!
Commands: a keyword and the arguments that its rule wants, and nothing after them.
-/
namespace BedrockCommand

namespace Step

/-- A command that keeps its place among others, whatever became of it: what is left of the
line is an error. -/
def closeCommand (s : Step) : Step :=
  s.settle.andThen fun c => if c.lineContinues then sweep .tooManyArguments c else done c

/-- The token of a keyword, with a warning about a command that is restricted. -/
def keyword (name typed : String) (start stop : Cursor) : Step :=
  let warning := if name ∈ Grammar.restricted then some (.noPermission typed) else none
  between start stop fun span =>
    .notice (.commandRead span name typed) :: .token ⟨.command, .command name, span⟩ ::
      warningEvents warning span

end Step

namespace Command

/-- A keyword and its arguments. A line without a keyword, or with an unknown one, is an error
as a whole. -/
def body (version : Version) (nested : Cursor → Step) (c : Cursor) : Step :=
  match Reader.word c with
  | (.error _, _) => (Step.sweep .expectedCommand c).andThen .halt
  | (.ok typed, c') =>
    let name := Grammar.canonicalName typed
    match Grammar.command? name version with
    | none => (Step.sweep (.unknownCommand name) c).andThen .halt
    | some rule =>
      (Step.keyword name typed c c').andThen (rule.run ⟨Grammar.dialect version, nested⟩)

/-- A command too deep inside others. -/
def tooDeep (c : Cursor) : Step :=
  (Step.report (.notice (.commandTooDeep c.position maxNesting)) c).andThen fun c =>
    (Step.sweep (.nestingTooDeep maxNesting) c).andThen .halt

/-- A command that may hold others to a depth. -/
def read (version : Version) : Nat → Cursor → Step
  | 0, c => (body version tooDeep c).closeCommand
  | depth + 1, c => (body version (read version depth) c).closeCommand

end Command
end BedrockCommand

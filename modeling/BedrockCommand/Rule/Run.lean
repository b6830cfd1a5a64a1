import BedrockCommand.Rule.Basic
/-!
Running a rule: the steps that its nodes take, one after another.
-/
namespace BedrockCommand

/-- What a rule runs with: what the game version decides, and what a command inside the
command does. -/
structure Env where
  dialect : Dialect
  nested : Cursor → Step

namespace Step

/-- Clauses up to the end of the line. A keyword takes a character at least, so that the
length of the line bounds their number. -/
def clauses (keywords : List String) (clause : String → Cursor → Step)
    (finish : Option String → Cursor → Step) : Nat → Option String → Cursor → Step
  | 0, _, c => fail .endless c
  | fuel + 1, last, c =>
    if !c.lineContinues then finish last c
    else
      argument (.keyword keywords) c fun w c =>
        (clause w c).andThen (clauses keywords clause finish fuel (some w))

/-- A step that has to read everything there is; what it leaves is an error up to the end of
the line. -/
def whole (s : Step) : Step :=
  s.settle.andThen fun c => if c.atEnd then done c else sweep .tooMuchJson c

end Step

namespace Rule

/-- Runs a rule from a place in a line. -/
def run (env : Env) : Rule → Cursor → Step
  | done, c => .done c
  | read a next, c => Step.argument a c fun x c => (next x).run env c
  | expect x next, c => (Step.expect x c).andThen (next.run env)
  | spaces next, c => next.run env c.skipSpaces
  | negation next, c => next.run env (Reader.negation c).2
  | look q yes no, c => if q.holds c then yes.run env c else no.run env c
  | complain e next, c => (Step.complain e c).andThen (next.run env)
  | refuse e, c => Step.refuse e c
  | refuseLine e, c => (Step.sweep e c).andThen .halt
  | list b mayBeEmpty element next, c =>
    let s := Step.list b mayBeEmpty (element.run env) c
    s.unmarked.andThen ((next s.marks).run env)
  | mark name next, c => Step.andThen ⟨[], [name], .done, c⟩ (next.run env)
  | clauses keywords clause next, c =>
    Step.clauses keywords (fun w c => (clause w).run env c) (fun w c => (next w).run env c)
      (c.line.length + 1) none c
  | nested next, c => (env.nested c).andThen (next.run env)
  | embedded inner next, c =>
    let s := (inner.run env ⟨Text.trimEnd c.line, c.position⟩).whole
    (Step.andThen { s with cursor := c.toLineEnd } (Step.report (.json c.position))).andThen
      (next.run env)
  | noteTooDeep next, c =>
    (Step.report (.notice (.jsonTooDeep c.position maxNesting)) c).andThen (next.run env)
  | ask next, c => (next env.dialect).run env c
  | fault f, c => .fail f c

end Rule
end BedrockCommand

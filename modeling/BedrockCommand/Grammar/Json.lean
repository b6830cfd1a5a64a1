import BedrockCommand.Rule.Run
/-!
JSON inside a line: the rules for its values, and reading a text that is one value.
-/
namespace BedrockCommand

/-- What the outermost value may be. -/
inductive JsonShape where
  | any
  | object
  | array
deriving DecidableEq, Repr, Inhabited

/-- Which names stand for values. -/
inductive JsonDialect where
  /-- `true` and `false`, as in commands. -/
  | strict
  /-- Also `null`. -/
  | withNull
deriving DecidableEq, Repr, Inhabited

/-- The names that stand for values. -/
def JsonDialect.constants : JsonDialect → List String
  | strict => ["true", "false"]
  | withNull => ["true", "false", "null"]

namespace Rule

/-- One of some names, or an error. -/
def jsonConstant (names : List String) : Rule :=
  names.foldr (fun w otherwise =>
      .look (.jsonConstant w) (.read (.jsonConstant w) fun _ => .spaces .done) otherwise)
    (.refuse .expectedJson)

def jsonArray (item : Rule) : Rule :=
  .list .square true item fun _ => .done

/-- An object with a rule for the values of its fields. -/
def jsonObject (item : Rule) : Rule :=
  .list .curly true (.read .quotedKey fun _ => .expect ':' item) fun _ => .done

def jsonValueWith (dialect : JsonDialect) (array object : Rule) : Rule :=
  .look (.char '"') (argument .quoted) <|
  .look .jsonNumber (argument .jsonNumber) <|
  .look (.char '[') array <|
  .look (.char '{') object <|
  jsonConstant dialect.constants

/-- Arrays and objects where none may be any more. -/
def jsonTooDeep : Rule :=
  .noteTooDeep (.refuseLine (.nestingTooDeep maxNesting))

/-- A value in which arrays and objects nest to a depth. -/
def jsonValue (dialect : JsonDialect) : Nat → Rule
  | 0 => jsonValueWith dialect jsonTooDeep jsonTooDeep
  | depth + 1 =>
    let inner := jsonValue dialect depth
    jsonValueWith dialect (jsonArray inner) (jsonObject inner)

/-- A value of a shape, after spaces. An outermost array or object that is asked for does not
count as nested. -/
def jsonText (dialect : JsonDialect) (shape : JsonShape) : Rule :=
  let value := jsonValue dialect maxNesting
  .spaces <| match shape with
    | .any => value
    | .object => jsonObject value
    | .array => jsonArray value

/-- A JSON value up to the end of the line. -/
def json (shape : JsonShape) : Rule :=
  .embedded (jsonText .strict shape) .done

end Rule

/-- Reads a text that is one JSON value. -/
def readJson (text : String) (start : Position) (shape : JsonShape) (dialect : JsonDialect) :
    Step :=
  ((Rule.jsonText dialect shape).run ⟨⟨none, []⟩, Step.done⟩ (.ofText text start)).whole

end BedrockCommand

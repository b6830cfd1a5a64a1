import BedrockCommand.Number.Layout
/-!
JSON values, and their texts: on one line, or with one item a line.
-/
namespace BedrockCommand

/-- A JSON value. Integers are told apart from numbers with a point or an exponent, and the
fields of an object keep their order. -/
inductive JsonValue where
  | null
  | boolean (value : Bool)
  | integer (value : Int)
  | number (value : Binary64)
  | string (value : String)
  | array (items : List JsonValue)
  | object (fields : List (String × JsonValue))
deriving Repr, Inhabited

namespace JsonValue

/-- The escape of a character in a JSON string; only quotes, backslashes and control
characters below the space have one. -/
def escaped (c : Char) : List Char :=
  if c = '"' ∨ c = '\\' then ['\\', c]
  else if c = '\x08' then ['\\', 'b']
  else if c = '\x0c' then ['\\', 'f']
  else if c = '\n' then ['\\', 'n']
  else if c = '\r' then ['\\', 'r']
  else if c = '\t' then ['\\', 't']
  else if c.toNat < 0x20 then
    let digits := Nat.toDigits 16 c.toNat
    ['\\', 'u'] ++ List.replicate (4 - digits.length) '0' ++ digits
  else [c]

def stringText (s : String) : String :=
  String.ofList (['"'] ++ s.toList.flatMap escaped ++ ['"'])

mutual

/-- A value on one line, without blanks. -/
def compact : JsonValue → String
  | null => "null"
  | boolean b => if b then "true" else "false"
  | integer n => toString n
  | number x => NumberLayout.json.text x
  | string s => stringText s
  | array items => "[" ++ ",".intercalate (compactItems items) ++ "]"
  | object fields => "\x7b" ++ ",".intercalate (compactFields fields) ++ "\x7d"

/-- The items of an array, each on one line. -/
def compactItems : List JsonValue → List String
  | [] => []
  | v :: vs => v.compact :: compactItems vs

/-- The fields of an object, each on one line. -/
def compactFields : List (String × JsonValue) → List String
  | [] => []
  | (k, v) :: fs => (stringText k ++ ":" ++ v.compact) :: compactFields fs

end

/-- A line break and the indentation of a depth. -/
def lineBreak (depth : Nat) : String :=
  String.ofList ('\n' :: List.replicate (2 * depth) ' ')

/-- Entries between two brackets, each on a line of its own; brackets without entries stand
together. -/
def block (depth : Nat) (opening closing : String) (entries : List String) : String :=
  match entries with
  | [] => opening ++ closing
  | entries =>
    opening ++ lineBreak (depth + 1) ++ ("," ++ lineBreak (depth + 1)).intercalate entries ++
      lineBreak depth ++ closing

mutual

/-- A value at a depth, with one entry a line and two spaces for each depth. -/
def indented (depth : Nat) : JsonValue → String
  | array items => block depth "[" "]" (indentedItems (depth + 1) items)
  | object fields => block depth "\x7b" "\x7d" (indentedFields (depth + 1) fields)
  | v => v.compact

def indentedItems (depth : Nat) : List JsonValue → List String
  | [] => []
  | v :: vs => v.indented depth :: indentedItems depth vs

def indentedFields (depth : Nat) : List (String × JsonValue) → List String
  | [] => []
  | (k, v) :: fs => (stringText k ++ ": " ++ v.indented depth) :: indentedFields depth fs

end

/-- A value with one entry a line. -/
def pretty (v : JsonValue) : String :=
  v.indented 0

/-- The value of a field of an object; when a name occurs twice, the last one. -/
def field? (v : JsonValue) (name : String) : Option JsonValue :=
  match v with
  | object fields => fields.reverse.lookup name
  | _ => none

end JsonValue
end BedrockCommand

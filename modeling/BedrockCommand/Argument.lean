import BedrockCommand.Diagnostic.Warning
import BedrockCommand.Reader.Number
import BedrockCommand.Reader.Word
import BedrockCommand.Rule.Separator
import BedrockCommand.Token
/-!
Arguments: everything that is read as one token. An argument says how its text is read, which
token the text becomes, and what it answers to the rule that asked for it.
-/
namespace BedrockCommand

/-- What a name or free text is for. -/
inductive Role where
  | string
  | selector
  | scoreboard
  | tag
deriving DecidableEq, Repr

def Role.kind : Role → TokenKind
  | string => .string
  | selector => .selector
  | scoreboard => .scoreboard
  | tag => .tag

/-- An argument of a command, or a part of one, that is one token. -/
inductive Argument where
  /-- A namespaced identifier. -/
  | identifier
  /-- An unquoted word. -/
  | word
  /-- A word or a quoted string. -/
  | text (role : Role)
  | quoted
  /-- A quoted string that names an entry. -/
  | quotedKey
  /-- A star in place of a name. -/
  | star (role : Role)
  /-- `true` or `false`. -/
  | boolean
  /-- `true` or `false` as the value of a block state. -/
  | stateBoolean
  /-- An integer from a least to a greatest one, or without a greatest one. -/
  | integer (least : Int) (greatest : Option Int)
  /-- A number that may be bounded from below, and then also from above. -/
  | number (bounds : Option (Binary64 × Option Binary64))
  | range
  /-- A word of a list. -/
  | keyword (allowed : List String)
  /-- A word of a list, or `true` or `false`. -/
  | booleanOr (allowed : List String)
  /-- A word of a list, or else an identifier. -/
  | identifierOr (allowed : List String)
  /-- A word of a list, or else any other text. -/
  | textOr (allowed : List String)
  /-- What is left of the line, which must not be blank. -/
  | line (missing : SyntaxError)
  /-- A line of a list, or else any other line. -/
  | lineOr (allowed : List String)
  /-- A coordinate that follows others of the same position. -/
  | coordinate (earlier : List Reader.Anchor)
  | selectorCoordinate
  | angle
  | gameMode
  | difficulty
  | experience
  /-- The range over which players are spread, after their distance. -/
  | spreadRange (distance : Binary64)
  /-- The greatest random score, after the least one. -/
  | randomMaximum (least : Int)
  /-- A bound of a score, after the lower bound if there is one; a star is no bound. -/
  | scoreBound (least : Option Int)
  | permissionState
  /-- The axes along which `execute` aligns. -/
  | axes
  | comparison
  | scoreOperator
  /-- The mark of a selector and the variable after it. -/
  | selectorVariable
  | selectorOption (allowed : List String)
  /-- A key of a `hasitem` object. -/
  | hasitemKey
  /-- The data value of a `hasitem` object. -/
  | hasitemData
  | blockData
  /-- A data value where blocks have none. -/
  | staleBlockData
  | jsonNumber
  /-- `true`, `false` or `null` in JSON. -/
  | jsonConstant (word : String)
deriving DecidableEq, Repr

namespace Argument

/-- What an argument answers to the rule that asked for it. -/
@[reducible] def Answer : Argument → Type
  | integer .. => Int
  | number _ => Binary64
  | keyword _ => String
  | booleanOr _ => Option String
  | identifierOr _ => Option String
  | coordinate _ => Reader.Anchor
  | scoreBound _ => Option Int
  | selectorOption _ => String
  | hasitemKey => Option String
  | _ => Unit

end Argument

/-- What became of an argument: its token, whose end is the place of the cursor, a warning
about it, and the answer. Without an answer the rule gives up. -/
structure Reading (α : Type) where
  /-- The kind of the token, once it is known. -/
  kind : Option TokenKind
  value : TokenValue
  warning : Option WarningKind
  answer : Option α
  cursor : Cursor

namespace Reading

/-- The text is as wanted. -/
def accept (kind : TokenKind) (value : TokenValue) (answer : α) (c : Cursor) : Reading α :=
  ⟨some kind, value, none, some answer, c⟩

/-- The text is as wanted; what it is depends on what it says. -/
def undecided (answer : α) (c : Cursor) : Reading α :=
  ⟨none, .none, none, some answer, c⟩

/-- Decides what the text is. -/
def decided (r : Reading α) (kind : TokenKind) (value : TokenValue) : Reading α :=
  { r with kind := some kind, value := value }

/-- The text is wrong, but the rule knows how to go on. -/
def reject (e : SyntaxError) (answer : α) (c : Cursor) : Reading α :=
  ⟨some .error, .error e, none, some answer, c⟩

/-- The text is wrong, and the rule gives up. -/
def refuse (e : SyntaxError) (c : Cursor) : Reading α :=
  ⟨some .error, .error e, none, none, c⟩

/-- The text is as wanted if a test passes. -/
def acceptIf (test : Bool) (kind : TokenKind) (value : TokenValue) (e : SyntaxError)
    (answer : α) (c : Cursor) : Reading α :=
  if test then accept kind value answer c else reject e answer c

/-- The same reading with a warning if a test passes. -/
def warnIf (r : Reading α) (test : Bool) (w : WarningKind) : Reading α :=
  if test then { r with warning := some w } else r

/-- Reads a value and judges it. A reader that fails ends the rule. -/
def of (r : Reader β) (judge : β → Cursor → Reading α) (c : Cursor) : Reading α :=
  match r c with
  | (.ok x, c') => judge x c'
  | (.error e, c') => refuse e c'

end Reading

namespace Argument

open Reading

def integerValue (n : Int) : TokenValue :=
  .number (.ofInt n)

/-- Whether an integer lies between two bounds. -/
def liesIn (least : Int) (greatest : Option Int) (n : Int) : Bool :=
  least ≤ n && greatest.all (n ≤ ·)

/-- Whether a number lies between two bounds. -/
def isWithin (bounds : Option (Binary64 × Option Binary64)) (x : Binary64) : Bool :=
  match bounds with
  | none => true
  | some (least, greatest) => !x.lt least && greatest.all fun y => !y.lt x

/-- The error for a number that does not lie between two bounds. -/
def boundsError (bounds : Option (Binary64 × Option Binary64)) : SyntaxError :=
  match bounds with
  | none => .expectedNumber
  | some (least, greatest) => .outOfRange least greatest

def isData (n : Int) : Bool :=
  liesIn (-1) (some 32767) n

def dataError : SyntaxError :=
  .between (.ofInt (-1)) (.ofInt 32767)

def selectorVariables : List String :=
  ["a", "e", "r", "s", "p", "c", "v", "initiator"]

/-- The keys of a `hasitem` object. -/
def hasitemKeys : List String :=
  ["item", "data", "quantity", "location", "slot"]

/-- The operations on scores; of two that both fit, the one that comes first is read. -/
def scoreOperators : List String :=
  ["+=", "-=", "*=", "/=", "%=", "><", "=", "<", ">"]

/-- What is wrong with the axes of an alignment, read from the left. -/
def axesError? (earlier : List Char) : List Char → Option SyntaxError
  | [] => none
  | c :: cs =>
    if c ∉ ['x', 'y', 'z'] then some .illegalAxis
    else if c ∈ earlier then some .repeatedAxis
    else axesError? (c :: earlier) cs

def starOrInteger : Reader (Option Int) := do
  if ← Reader.look (·.isAt '*') then do
    Reader.symbol '*'
    return none
  else do
    let n ← Reader.integer
    return some n

/-- How many characters the comparison at a cursor has: an equals sign may follow the
others. -/
def comparisonLength (c : Cursor) : Nat :=
  if !c.isAt '=' && c.advance.isAt '=' then 2 else 1

def read : (a : Argument) → Cursor → Reading a.Answer
  | identifier => of Reader.identifier fun _ => accept .string .none ()
  | word => of Reader.word fun _ => accept .string .none ()
  | text role => of Reader.text fun _ => accept role.kind .none ()
  | quoted => of Reader.quoted fun _ => accept .string .none ()
  | quotedKey => of Reader.quoted fun _ => accept .option .none ()
  | star role => of (Reader.symbol '*') fun _ => accept role.kind .none ()
  | boolean => of Reader.boolean fun b => accept .boolean (.boolean b) ()
  | stateBoolean => of Reader.word fun w =>
    if w = "true" ∨ w = "false" then accept .boolean (.boolean (w = "true")) ()
    else reject .expectedStateValue ()
  | integer least greatest => of Reader.integer fun n =>
    acceptIf (liesIn least greatest n) .number (integerValue n)
      (.outOfRange (.ofInt least) (greatest.map .ofInt)) n
  | number bounds => of Reader.number fun x =>
    acceptIf (isWithin bounds x) .number (.number x) (boundsError bounds) x
  | range => of Reader.range fun _ => accept .number .none ()
  | keyword allowed => of Reader.word fun w =>
    if w ∈ allowed then accept .option .none w else refuse (.invalidOption w allowed)
  | booleanOr allowed => of Reader.word fun w c =>
    if w ∈ allowed then (undecided (some w) c).decided .option .none
    else if w = "true" ∨ w = "false" then
      (undecided none c).decided .boolean (.boolean (w = "true"))
    else refuse (.expectedBooleanOr allowed) c
  | identifierOr allowed => of Reader.identifier fun w c =>
    if w ∈ allowed then (undecided (some w) c).decided .option .none
    else (undecided none c).decided .string .none
  | textOr allowed => of Reader.text fun w c =>
    (undecided () c).decided (if w ∈ allowed then .option else .string) .none
  | line missing => of Reader.line fun l =>
    acceptIf (l ≠ "") .string .none missing ()
  | lineOr allowed => of Reader.line fun l c =>
    (undecided () c).decided (if l ∈ allowed then .option else .string) .none
  | coordinate earlier => of Reader.coordinate fun a =>
    acceptIf (!((a :: earlier).contains .place && (a :: earlier).contains .view))
      .position .none .localWithRelative a
  | selectorCoordinate => of Reader.coordinate fun a =>
    acceptIf (a ≠ .view) .position .none .localCoordinateInSelector ()
  | angle => of Reader.angle fun _ => accept .position .none ()
  | gameMode => of Reader.integer fun n =>
    acceptIf ([0, 1, 2, 5].contains n) .option .none .invalidGameMode ()
  | difficulty => of Reader.number fun x =>
    acceptIf (isWithin (some (0, some 3)) x) .option (.number x) (.between 0 3) ()
  | experience => of Reader.experience fun n => accept .number (integerValue n) ()
  | spreadRange distance => of Reader.number fun x =>
    if x.lt 1 then reject (.below 1) ()
    else acceptIf (distance.lt x) .number (.number x) .impossibleSpread ()
  | randomMaximum least => of Reader.integer fun n =>
    acceptIf (least ≤ n) .number (integerValue n) .impossibleRandom ()
  | scoreBound least => of starOrInteger fun n? =>
    match n? with
    | none => accept .number .none none
    | some n => acceptIf (least.all (· ≤ n)) .number (integerValue n) .impossibleTest (some n)
  | permissionState => of Reader.word fun w =>
    acceptIf (["enabled", "disabled"].contains w) .option .none .expectedPermissionState ()
  | axes => of Reader.word fun w =>
    match axesError? [] w.toList with
    | none => accept .option .none ()
    | some e => reject e ()
  | comparison => fun c => accept .option .none () (c.skip (comparisonLength c))
  | scoreOperator => fun c =>
    match scoreOperators.find? (fun o => o.toList.isPrefixOf c.rest) with
    | some o => accept .option .none () (c.skip o.length)
    | none => refuse .expectedScoreOperator c
  | selectorVariable => fun c =>
    match Reader.word c.advance with
    | (.ok w, c') =>
      acceptIf (selectorVariables.contains w) .selector .none (.invalidSelectorVariable w) () c'
    | (.error e, c') => reject e () c'
  | selectorOption allowed => of Reader.word fun w c =>
    if w ∈ allowed then accept .option .none w c
    else refuse (.invalidSelectorOption w) c.toLineEnd
  | hasitemKey => of Reader.word fun w c =>
    if w ∈ hasitemKeys then accept .option .none (some w) c
    else reject (.invalidHasitemKey w) none (c.toSeparator '}')
  | hasitemData => of Reader.integer fun n c =>
    (acceptIf (isData n) .number (integerValue n) dataError () c).warnIf
      (isData n && n < 0) .negativeHasitemData
  | blockData => of Reader.integer fun n c =>
    (acceptIf (isData n) .number (integerValue n) dataError () c).warnIf true .blockData
  | staleBlockData => fun c => refuse .expectedStates (Reader.integer c).2
  | jsonNumber => of Reader.jsonNumber fun x => accept .number (.number x) ()
  | jsonConstant w => fun c =>
    if w = "null" then accept .option .none () (c.skip w.length)
    else accept .boolean (.boolean (w = "true")) () (c.skip w.length)

end Argument
end BedrockCommand

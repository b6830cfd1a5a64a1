import BedrockCommand.Number.Layout
import BedrockCommand.Text.Quoted
/-!
What can be wrong with a command: the causes, each with its message, its code and the named
parts of its message.
-/
namespace BedrockCommand

/-- Why a stretch of source is not what the grammar wants there. -/
inductive SyntaxError where
  /-- A value runs straight into a character that cannot end it. -/
  | expectedTerminator
  | expectedWord
  | expectedIdentifier
  | expectedMessage
  | expectedChar (expected : Char)
  | expectedInteger
  | expectedNumber
  | expectedRange
  | expectedBoolean
  | expectedBooleanOr (keywords : List String)
  | expectedPosition
  | expectedJson
  | expectedCommand
  /-- A block goes without the states or data value that it needs. -/
  | expectedStatesOrData
  | expectedStates
  | expectedStateValue
  | expectedSubcommand
  | expectedFunctionPath
  | expectedScoreOperator
  | expectedPermissionState
  /-- Text between list elements is neither a comma nor the closing bracket. -/
  | expectedSeparator (close : Char)
  | unclosedString
  | unclosedBracket (close : Char)
  | trailingComma
  /-- A number lies below the least or above the greatest one allowed. -/
  | outOfRange (least : Binary64) (greatest : Option Binary64)
  | integerOverflow
  | incompleteFraction
  /-- A range starts above its end. -/
  | impossibleRange
  | impossibleRandom
  | impossibleTest
  | impossibleSpread
  | numericWord
  | numericIdentifier
  | illegalIdentifierChar
  | illegalAxis
  | repeatedAxis
  | multipleColons
  | unknownCommand (name : String)
  | tooManyArguments
  | tooMuchJson
  | invalidOption (word : String) (allowed : List String)
  | invalidSelectorOption (name : String)
  | invalidHasitemKey (name : String)
  | missingHasitemItem
  | invalidSelectorVariable (name : String)
  | invalidGameMode
  /-- A selector is given a coordinate relative to the view. -/
  | localCoordinateInSelector
  | localWithRelative
  | wrongExecuteEnd
  | emptyList
  | nestingTooDeep (limit : Nat)
deriving DecidableEq, Repr, Inhabited

namespace SyntaxError

/-- A number that has to lie between two bounds. -/
def between (least greatest : Binary64) : SyntaxError :=
  .outOfRange least (some greatest)

/-- A number that must not be smaller than a bound. -/
def below (least : Binary64) : SyntaxError :=
  .outOfRange least none

/-- The text of an upper bound that may be missing. -/
def greatestText (greatest : Option Binary64) : String :=
  match greatest with
  | some x => toString x
  | none => "+inf"

/-- The interval of allowed numbers. -/
def intervalText (least : Binary64) (greatest : Option Binary64) : String :=
  "[" ++ toString least ++ ", " ++ greatestText greatest ++
    (if greatest.isSome then "]" else ")")

def message : SyntaxError → String
  | expectedTerminator => "expected a terminating character"
  | expectedWord => "expected a word"
  | expectedIdentifier => "expected a namespaced identifier"
  | expectedMessage => "expected a message"
  | expectedChar c => "expected character " ++ Text.quoteChar c
  | expectedInteger => "expected an integer"
  | expectedNumber => "expected a number"
  | expectedRange => "expected an integer range"
  | expectedBoolean => "expected a boolean value"
  | expectedBooleanOr keywords => "expected a boolean or one of " ++ Text.listed keywords
  | expectedPosition => "expected a position"
  | expectedJson => "expected a JSON value"
  | expectedCommand => "expected a command"
  | expectedStatesOrData => "expected block states or a data value"
  | expectedStates => "expected block states"
  | expectedStateValue => "expected a boolean, an integer or a quoted string"
  | expectedSubcommand => "expected an execute subcommand"
  | expectedFunctionPath => "expected a function path"
  | expectedScoreOperator => "expected one of +=, -=, *=, /=, %=, =, <, >, ><"
  | expectedPermissionState => "expected a state (enabled / disabled)"
  | expectedSeparator close => "expected ',' or " ++ Text.quoteChar close
  | unclosedString => "unclosed string"
  | unclosedBracket close => "unclosed bracket, expected " ++ Text.quoteChar close
  | trailingComma => "trailing comma is not allowed"
  | outOfRange least greatest => "number not in range: " ++ intervalText least greatest
  | integerOverflow => "integer overflow"
  | incompleteFraction => "incomplete floating point number"
  | impossibleRange => "start of integer range is larger than its end"
  | impossibleRandom => "random minimum is larger than maximum"
  | impossibleTest => "test minimum is larger than maximum"
  | impossibleSpread => "spread range must be larger than distance"
  | numericWord => "a number-like word must be quoted"
  | numericIdentifier => "a namespaced identifier cannot be number-like"
  | illegalIdentifierChar => "namespaced identifiers may only contain a-z, 0-9, _, -, . and :"
  | illegalAxis => "align axes may only contain 'x', 'y' and 'z'"
  | repeatedAxis => "align axes repeat 'x', 'y' or 'z'"
  | multipleColons => "more than one colon in namespaced identifier"
  | unknownCommand name => "unknown command: " ++ Text.quote name
  | tooManyArguments => "too many arguments"
  | tooMuchJson => "characters after end of JSON"
  | invalidOption word allowed =>
    "invalid option: " ++ Text.quote word ++ "; expected " ++ Text.listed allowed
  | invalidSelectorOption name => "invalid selector argument: " ++ Text.quote name
  | invalidHasitemKey name => "invalid hasitem argument: " ++ Text.quote name
  | missingHasitemItem => "\"item\" argument is required for hasitem"
  | invalidSelectorVariable name => "invalid selector type: " ++ Text.quote name
  | invalidGameMode => "invalid game mode id"
  | localCoordinateInSelector =>
    "^ positions can not be used for selector arguments 'x', 'y' and 'z'"
  | localWithRelative => "~ and ^ can not be used together in a position"
  | wrongExecuteEnd => "\"execute\" must end with \"run\", \"if\" or \"unless\""
  | emptyList => "at least one element is required"
  | nestingTooDeep limit => "commands nested more than " ++ toString limit ++ " levels deep"

instance : ToString SyntaxError := ⟨message⟩

/-- The code of an error, which stays the same when its message changes. -/
def code : SyntaxError → String
  | expectedTerminator => "MCC1001"
  | expectedWord => "MCC1002"
  | expectedIdentifier => "MCC1003"
  | expectedMessage => "MCC1004"
  | expectedChar _ => "MCC1005"
  | expectedInteger => "MCC1006"
  | expectedNumber => "MCC1007"
  | expectedRange => "MCC1008"
  | expectedBoolean => "MCC1009"
  | expectedBooleanOr _ => "MCC1010"
  | expectedPosition => "MCC1011"
  | expectedJson => "MCC1012"
  | expectedCommand => "MCC1013"
  | expectedStatesOrData => "MCC1014"
  | expectedStates => "MCC1015"
  | expectedStateValue => "MCC1016"
  | expectedSubcommand => "MCC1017"
  | expectedFunctionPath => "MCC1018"
  | expectedScoreOperator => "MCC1019"
  | expectedPermissionState => "MCC1020"
  | expectedSeparator _ => "MCC1021"
  | unclosedString => "MCC1022"
  | incompleteFraction => "MCC1023"
  | numericWord => "MCC1024"
  | numericIdentifier => "MCC1025"
  | illegalIdentifierChar => "MCC1026"
  | multipleColons => "MCC1027"
  | illegalAxis => "MCC1028"
  | repeatedAxis => "MCC1029"
  | unknownCommand _ => "MCC1101"
  | invalidOption .. => "MCC1102"
  | invalidSelectorOption _ => "MCC1103"
  | invalidHasitemKey _ => "MCC1104"
  | invalidSelectorVariable _ => "MCC1105"
  | invalidGameMode => "MCC1106"
  | outOfRange .. => "MCC1201"
  | impossibleRange => "MCC1202"
  | impossibleRandom => "MCC1203"
  | impossibleTest => "MCC1204"
  | impossibleSpread => "MCC1205"
  | localCoordinateInSelector => "MCC1206"
  | localWithRelative => "MCC1207"
  | unclosedBracket _ => "MCC1301"
  | trailingComma => "MCC1302"
  | tooManyArguments => "MCC1303"
  | tooMuchJson => "MCC1304"
  | missingHasitemItem => "MCC1305"
  | wrongExecuteEnd => "MCC1306"
  | emptyList => "MCC1307"
  | nestingTooDeep _ => "MCC1308"
  | integerOverflow => "MCC1401"

def kindName : SyntaxError → String
  | expectedTerminator => "exp_terminating_char"
  | expectedWord => "exp_word"
  | expectedIdentifier => "exp_id"
  | expectedMessage => "exp_message"
  | expectedChar _ => "exp_char"
  | expectedInteger => "exp_integer"
  | expectedNumber => "exp_number"
  | expectedRange => "exp_int_range"
  | expectedBoolean => "exp_bool"
  | expectedBooleanOr _ => "exp_bool_or_option"
  | expectedPosition => "exp_pos"
  | expectedJson => "exp_json"
  | expectedCommand => "exp_command"
  | expectedStatesOrData => "exp_bs_dv"
  | expectedStates => "exp_block_state"
  | expectedStateValue => "exp_bs_value"
  | expectedSubcommand => "exp_execute_subcmd"
  | expectedFunctionPath => "exp_function_path"
  | expectedScoreOperator => "exp_scb_op"
  | expectedPermissionState => "exp_state"
  | expectedSeparator _ => "exp_list_separator"
  | unclosedString => "unclosed_string"
  | unclosedBracket _ => "unclosed_bracket"
  | trailingComma => "trailing_comma"
  | outOfRange .. => "number_out_of_range"
  | integerOverflow => "integer_overflow"
  | incompleteFraction => "incomplete_float"
  | impossibleRange => "impossible_range"
  | impossibleRandom => "impossible_random"
  | impossibleTest => "impossible_test"
  | impossibleSpread => "impossible_spread"
  | numericWord => "numlike_word"
  | numericIdentifier => "numlike_id"
  | illegalIdentifierChar => "illegal_char_in_id"
  | illegalAxis => "illegal_char_in_axes"
  | repeatedAxis => "repeat_char_in_axes"
  | multipleColons => "multiple_colons_in_id"
  | unknownCommand _ => "unknown_command"
  | tooManyArguments => "too_many_args"
  | tooMuchJson => "too_much_json"
  | invalidOption .. => "invalid_option"
  | invalidSelectorOption _ => "invalid_selector_arg"
  | invalidHasitemKey _ => "invalid_hasitem_arg"
  | missingHasitemItem => "hasitem_missing_item"
  | invalidSelectorVariable _ => "invalid_selector_type"
  | invalidGameMode => "invalid_gamemode_id"
  | localCoordinateInSelector => "local_pos_for_selector"
  | localWithRelative => "local_pos_with_relative"
  | wrongExecuteEnd => "wrong_execute_end"
  | emptyList => "at_least_one_element"
  | nestingTooDeep _ => "nesting_too_deep"

/-- The named parts of the message, in the order of their names. -/
def parameters : SyntaxError → List (String × String)
  | expectedChar c => [("char", c.toString)]
  | expectedBooleanOr keywords => [("options", Text.listed keywords)]
  | expectedSeparator close | unclosedBracket close => [("close", close.toString)]
  | outOfRange least greatest => [("max", greatestText greatest), ("min", toString least)]
  | unknownCommand name => [("command", name)]
  | invalidOption word allowed => [("allowed", Text.listed allowed), ("option", word)]
  | invalidSelectorOption name | invalidHasitemKey name => [("arg", name)]
  | invalidSelectorVariable name => [("var", name)]
  | nestingTooDeep limit => [("limit", toString limit)]
  | _ => []

end SyntaxError
end BedrockCommand

/-!
What each diagnostic code means, for a reader who met it in a report.
-/
namespace BedrockCommand

/-- The explanation of every code, in the order of the codes. -/
def explanations : List (String × String) :=
  [("MCC1001",
     "An argument was followed directly by a character that cannot end it. Arguments are " ++
      "separated by spaces or by punctuation such as '[', ',' or '='."),
   ("MCC1002", "An unquoted word was required here."),
   ("MCC1003", "A namespaced identifier such as `minecraft:stone` was required here."),
   ("MCC1004", "This command needs a message; the rest of the line was empty."),
   ("MCC1005", "A specific punctuation character was required here."),
   ("MCC1006", "An integer was required. Integers may have a leading '+' or '-'."),
   ("MCC1007", "A number was required. Numbers may have a sign and a fractional part."),
   ("MCC1008",
     "An integer range such as `3`, `1..5`, `..5` or `1..` was required; at least one " ++
      "bound must be present."),
   ("MCC1009", "Either `true` or `false` was required."),
   ("MCC1010", "Either a boolean or one of the listed keywords was required."),
   ("MCC1011",
     "A position component was required: a number, `~` (relative) or `^` (local), each " ++
      "optionally followed by an offset."),
   ("MCC1012", "A JSON value was required. Only the rest of the current line is read."),
   ("MCC1013", "A command name was required at the start of the line."),
   ("MCC1014", "A block needs either block states (`[...]`) or a numeric data value."),
   ("MCC1015",
     "From 1.19.70 blocks take block states (`[\"key\":value]`) only; numeric data values " ++
      "are no longer accepted."),
   ("MCC1016", "Block state values must be booleans, integers or quoted strings."),
   ("MCC1017",
     "Expected an `execute` subcommand: align, anchored, as, at, facing, in, positioned, " ++
      "rotated, run, if or unless."),
   ("MCC1018", "A function path such as `folder/name` was required."),
   ("MCC1019", "Expected a scoreboard operator: +=, -=, *=, /=, %=, =, <, > or ><."),
   ("MCC1020", "Expected `enabled` or `disabled`."),
   ("MCC1021",
     "List elements must be separated by ',' and the list closed by its bracket. The " ++
      "unexpected text up to the next separator was skipped."),
   ("MCC1022",
     "A quoted string was not closed before the end of the line. Use `\\\"` to put a quote " ++
      "inside a string."),
   ("MCC1023", "A decimal point must be followed by at least one digit."),
   ("MCC1024", "Words that read as numbers must be quoted to be used as names."),
   ("MCC1025", "Namespaced identifiers cannot read as numbers."),
   ("MCC1026",
     "Namespaced identifiers may only contain lowercase letters, digits, '_', '-', '.' and " ++
      "one ':'."),
   ("MCC1027", "A namespaced identifier can have only one ':' separating namespace and path."),
   ("MCC1028", "`execute align` axes may only contain 'x', 'y' and 'z'."),
   ("MCC1029", "`execute align` axes may name each axis at most once."),
   ("MCC1101",
     "The command does not exist in the configured game version. Check the spelling, or " ++
      "raise the target version."),
   ("MCC1102", "The keyword is not one of the options this argument accepts."),
   ("MCC1103",
     "The selector option is not recognized. The rest of the line is skipped because the " ++
      "value's shape is unknown."),
   ("MCC1104", "hasitem accepts the keys item, data, quantity, location and slot."),
   ("MCC1105", "Selector variables are @a, @e, @r, @s, @p, @c, @v and @initiator."),
   ("MCC1106", "Numeric game modes are 0, 1, 2 and 5."),
   ("MCC1201", "The number lies outside the bounds this argument allows."),
   ("MCC1202", "The start of a range must not be larger than its end."),
   ("MCC1203", "`scoreboard players random` needs min <= max."),
   ("MCC1204", "`scoreboard players test` needs min <= max."),
   ("MCC1205", "`spreadplayers` max range must be larger than the spread distance."),
   ("MCC1206", "Selector x, y and z accept absolute or `~` coordinates, not `^`."),
   ("MCC1207", "A position cannot mix `~` and `^` components."),
   ("MCC1301", "A bracketed list was not closed before the end of the line."),
   ("MCC1302", "A comma cannot directly precede a closing bracket."),
   ("MCC1303", "The command was complete but more text followed it."),
   ("MCC1304", "A JSON value was complete but more text followed it on the line."),
   ("MCC1305", "Every hasitem object needs an `item` key."),
   ("MCC1306", "An `execute` chain must end with `run`, `if` or `unless`."),
   ("MCC1307", "This list cannot be empty."),
   ("MCC1308", "Commands nested with `run` went deeper than the tokenizer allows."),
   ("MCC1401", "Integers must fit in 32 signed bits (-2147483648..=2147483647)."),
   ("MCC2001",
     "The command needs operator permission that function files and command blocks do not " ++
      "have."),
   ("MCC2002", "A negative hasitem `data` matches unpredictably; use 0..=32767."),
   ("MCC2003", "Numeric block data values are deprecated in favor of block states.")]

/-- The explanation of a code; other texts have none. -/
def explain? (code : String) : Option String :=
  explanations.lookup code

end BedrockCommand

import BedrockCommand.Number.Numeral
import BedrockCommand.Reader.Basic
/-!
Readers of words, quoted strings and identifiers.
-/
namespace BedrockCommand.Reader

/-- Reads the characters up to one that ends a word. -/
def untilTerminator : Reader (List Char) :=
  takeWhile fun c => !isTerminating c

/-- Reads a word, which must not read as a number. -/
def rawWord : Reader String := do
  let word ← untilTerminator
  if word.isEmpty then fail .expectedWord
  else if Numeral.isNumeric word then fail .numericWord
  else return String.ofList word

/-- Reads a word and the spaces after it. -/
def word : Reader String := do
  let word ← rawWord
  argumentEnd
  return word

/-- The content of a quoted string whose opening quote is read, and the text after its closing
quote: up to the first quote without a backslash in front, or none if the line ends before.
A quote with a backslash in front stands for itself. -/
def quoted? : List Char → Option (List Char × List Char)
  | [] => none
  | '"' :: rest => some ([], rest)
  | '\\' :: '"' :: rest => (quoted? rest).map fun (text, after) => ('"' :: text, after)
  | c :: rest =>
    if c = '\n' then none
    else (quoted? rest).map fun (text, after) => (c :: text, after)

/-- Reads a quoted string. Without a closing quote it runs to the end of the line. -/
def rawQuoted : Reader String := do
  exactly '"'
  fun c =>
    match quoted? c.rest with
    | some (text, after) =>
      (.ok (String.ofList text), c.skip (c.rest.length - after.length))
    | none => (.error .unclosedString, c.toLineEnd)

/-- Reads a quoted string and the spaces after it. -/
def quoted : Reader String := do
  let text ← rawQuoted
  spaces
  return text

/-- Reads a word or a quoted string. -/
def text : Reader String := do
  if ← look (·.isAt '"') then quoted else word

/-- Whether a character may stand in an identifier. -/
def isIdentifierChar (c : Char) : Bool :=
  c.isDigit || c.isLower || c = '_' || c = '-' || c = '.' || c = ':'

/-- Reads a namespaced identifier and the spaces after it. -/
def identifier : Reader String := do
  let word ← untilTerminator
  if word.isEmpty then fail .expectedIdentifier
  else if !word.all isIdentifierChar then fail .illegalIdentifierChar
  else if 1 < word.count ':' then fail .multipleColons
  else if Numeral.isNumeric word then fail .numericIdentifier
  else do
    spaces
    return String.ofList word

/-- Reads `true` or `false`. -/
def boolean : Reader Bool := do
  let word ← rawWord
  if word = "true" then do argumentEnd; return true
  else if word = "false" then do argumentEnd; return false
  else fail .expectedBoolean

/-- Reads what is left of the line; the value goes without trailing blanks. -/
def line : Reader String :=
  fun c => (.ok c.lineText, c.toLineEnd)

end BedrockCommand.Reader

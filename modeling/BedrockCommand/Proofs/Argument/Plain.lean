import BedrockCommand.Rule.Basic
/-!
Plain words. Neither a space nor a control character stands in the words that the grammar knows, nor
in the characters that it asks for, nor a control character in the errors that do not quote the
text.
-/
namespace BedrockCommand

/-- Whether a character is neither the space nor a control character of ASCII below it. -/
def isPlainChar (x : Char) : Bool :=
  ' ' < x

def isPlainWord (w : String) : Bool :=
  w.toList.all isPlainChar

/-- Whether an error says the same whatever the text is. -/
def SyntaxError.isFixed : SyntaxError → Bool
  | expectedBooleanOr _ => false
  | unknownCommand _ => false
  | invalidOption .. => false
  | invalidSelectorOption _ => false
  | invalidHasitemKey _ => false
  | invalidSelectorVariable _ => false
  | _ => true

/-- Whether an argument is known in plain words, and in every version. -/
def Argument.isPlain : Argument → Bool
  | keyword allowed => allowed.all isPlainWord
  | booleanOr allowed => allowed.all isPlainWord
  | identifierOr allowed => allowed.all isPlainWord
  | textOr allowed => allowed.all isPlainWord
  | lineOr allowed => allowed.all isPlainWord
  | line missing => missing.isFixed
  | selectorOption _ => false
  | blockData => false
  | jsonConstant w => isPlainWord w
  | _ => true

/-- Whether a question asks for nothing but plain characters. -/
def Look.isPlain : Look → Bool
  | char x => isPlainChar x
  | word w => isPlainWord w
  | jsonConstant w => isPlainWord w
  | _ => true

theorem Look.isPlain_ne_newline {q : Look} (h : q.isPlain = true) : q ≠ .char '\n' := by
  rintro rfl
  simp [isPlain, isPlainChar] at h

theorem Look.isPlain_ne_space {q : Look} (h : q.isPlain = true) : q ≠ .char ' ' := by
  rintro rfl
  simp [isPlain, isPlainChar] at h

/-- An argument in a dialect: it is plain, or the version has it. -/
def Dialect.Allows (d : Dialect) : Argument → Prop
  | .selectorOption allowed => allowed = d.selectorOptions
  | .blockData => d.blockSuffix = some .dataOrStates
  | a => a.isPlain = true

theorem Dialect.Allows.of_isPlain {d : Dialect} {a : Argument} (h : a.isPlain = true) :
    d.Allows a := by
  cases a with
  | selectorOption | blockData => simp [Argument.isPlain] at h
  | _ => exact h

end BedrockCommand

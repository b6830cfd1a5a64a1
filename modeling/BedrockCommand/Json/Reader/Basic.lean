/-!
Reading JSON from the front of a text in one pass. The first problem that is met decides how
the text is rejected, so every reader here says exactly how far it looks.
-/
namespace BedrockCommand

/-- Why a text is rejected. -/
inductive JsonFault where
  /-- The text ends too early. -/
  | ended
  /-- The text is not JSON. -/
  | malformed
  /-- A value is not of the kind that is asked for. -/
  | mismatched
deriving DecidableEq, Repr

/-- What is said about a text that is rejected. -/
def JsonFault.message : JsonFault → String
  | ended => "the text ends too early"
  | malformed => "the text is not JSON"
  | mismatched => "the text does not hold what is asked for"

/-- Takes a value from the front of a text. -/
abbrev JsonReader := StateT (List Char) (Except JsonFault)

namespace JsonReader

/-- The blanks that may stand between the parts of a text. -/
def isBlank (c : Char) : Bool :=
  c = ' ' || c = '\n' || c = '\t' || c = '\r'

/-- The character after any blanks, which is left in place. -/
def ahead : JsonReader Char := fun cs =>
  match cs.dropWhile isBlank with
  | [] => .error .ended
  | c :: rest => .ok (c, c :: rest)

/-- Takes the next character. -/
def next : JsonReader Char := fun cs =>
  match cs with
  | [] => .error .ended
  | c :: rest => .ok (c, rest)

/-- Takes the next character if it passes a test. -/
def accept (p : Char → Bool) : JsonReader (Option Char) := fun cs =>
  match cs with
  | [] => .ok (none, [])
  | c :: rest => if p c then .ok (some c, rest) else .ok (none, c :: rest)

/-- Takes the given characters. -/
def letters : List Char → JsonReader Unit
  | [] => pure ()
  | x :: xs => do
    if (← next) ≠ x then throw .malformed
    letters xs

/-- Takes a given character after any blanks. -/
def symbol (x : Char) : JsonReader Unit := do
  if (← ahead) ≠ x then throw .malformed
  discard next

/-- Whether brackets hold another entry. It is there unless the closing bracket is; every entry
but the first takes a comma, and no comma stands before the closing bracket. -/
def another (close : Char) (isFirst : Bool) : JsonReader Bool := do
  if (← ahead) = close then return false
  if isFirst then return true
  symbol ','
  if (← ahead) = close then throw .malformed
  return true

/-- Goes from state to state until there is a result, for a bounded number of rounds. -/
def rounds (round : σ → JsonReader (σ ⊕ α)) : Nat → σ → JsonReader α
  | 0, _, _ => .error .malformed
  | bound + 1, state, cs =>
    match round state cs with
    | .error e => .error e
    | .ok (.inr x, rest) => .ok (x, rest)
    | .ok (.inl state', rest) => rounds round bound state' rest

/-- Goes from state to state until there is a result. Every round but the last one takes
something from the text, whose length bounds their number. -/
def loop (round : σ → JsonReader (σ ⊕ α)) (state : σ) : JsonReader α := fun cs =>
  rounds round (cs.length + 1) state cs

/-- Reads a whole text, after which only blanks may follow. -/
def whole (r : JsonReader α) (text : String) : Except JsonFault α := do
  let (x, rest) ← r text.toList
  if rest.all isBlank then return x else throw .malformed

end JsonReader
end BedrockCommand

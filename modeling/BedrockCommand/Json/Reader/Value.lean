import BedrockCommand.Json.Reader.Scalar
/-!
Reading values of a kind that is asked for, and passing over values of any kind.
-/
namespace BedrockCommand.JsonReader

/-- Refuses a value of the wrong kind. What holds no other values is read to its end first,
and may turn out not to be JSON at all. -/
def mismatch : JsonReader α := do
  let c ← ahead
  if c ≠ '[' ∧ c ≠ '{' then scalar .strict
  throw .mismatched

/-- A value that may be null. -/
def optional (r : JsonReader α) : JsonReader (Option α) := do
  if (← ahead) = 'n' then
    letters "null".toList
    return none
  else return some (← r)

def text : JsonReader String := do
  if (← ahead) = '"' then string .strict else mismatch

/-- A natural number of at most 64 bits. -/
def natural : JsonReader Nat := do
  if startsNumber (← ahead) then
    match (← number .strict).natural? with
    | some n => return n
    | none => throw .mismatched
  else mismatch

/-- One item of an array of strings, or its end; the state is the items that were read, the
last one first. -/
def textsRound (read : List String) : JsonReader (List String ⊕ List String) := do
  if ← another ']' read.isEmpty then return .inl ((← text) :: read)
  symbol ']'
  return .inr read.reverse

/-- An array of strings. -/
def texts : JsonReader (List String) := do
  if (← ahead) ≠ '[' then mismatch
  symbol '['
  loop textsRound []

/-- Where a value is passed over: the closing brackets that are still to come, the innermost
one first, and whether a value comes next. -/
structure Passing where
  closing : List Char
  valueNext : Bool

/-- The key of an entry, if the brackets around it are those of an object. -/
def passKey (close : Char) : JsonReader Unit := do
  if close = '}' then
    discard (string .loose)
    symbol ':'

/-- Goes on in brackets: to the value of the next entry or past the closing bracket. -/
def passEntry (close : Char) (outer : List Char) (isFirst : Bool) : JsonReader Passing := do
  if ← another close isFirst then
    passKey close
    return ⟨close :: outer, true⟩
  symbol close
  return ⟨outer, false⟩

/-- Passes over an opening bracket, a value that holds no others, or what is between values. -/
def passRound (p : Passing) : JsonReader (Passing ⊕ Unit) := do
  match p with
  | ⟨[], false⟩ => return .inr ()
  | ⟨close :: outer, false⟩ => return .inl (← passEntry close outer false)
  | ⟨closing, true⟩ =>
    match ← ahead with
    | '[' => symbol '['; return .inl (← passEntry ']' closing true)
    | '{' => symbol '{'; return .inl (← passEntry '}' closing true)
    | _ => scalar .loose; return .inl ⟨closing, false⟩

/-- Passes over a value of any kind. -/
def pass : JsonReader Unit :=
  loop passRound ⟨[], true⟩

end BedrockCommand.JsonReader

import BedrockCommand.Proofs.Reader.Form
import BedrockCommand.Rule.List
import BedrockCommand.Version.Basic
/-!
The grammar of targets: names, selector variables, and the options that a variable may have.
-/
namespace BedrockCommand.Form

/-! ## Lists and entries -/

/-- One form or more with commas between them. -/
inductive commas (F : Form α) : Form (List α) where
  | one {cs ds : List Char} {x : α} (h : F cs x ds) : commas F cs [x] ds
  | more {cs ds es : List Char} {x : α} {xs : List α} (h : F cs x (',' :: ds))
    (ht : commas F (afterSpaces ds) xs es) : commas F cs (x :: xs) es

/-- One form or more in brackets. -/
inductive list (b : Brackets) (F : Form α) : Form (List α) where
  | intro {cs ds : List Char} {xs : List α}
    (h : commas F (afterSpaces cs) xs (b.closing :: ds)) :
    list b F (b.opening :: cs) xs (afterSpaces ds)

/-- A word of a list. -/
def keyword (allowed : List String) : Form String :=
  (spaced word).sat (· ∈ allowed)

/-- A key, an equals sign and the value for the key. -/
def entry (key : Form α) (value : α → Form Unit) : Form α :=
  key.seq fun k => symbol '=' (value k)

/-! ## Values of options -/

/-- A range, which may be negated. -/
def rangeValue : Form Unit :=
  negatable (spaced range)

def scores : Form Unit :=
  any (list .curly (entry (spaced text) fun _ => rangeValue))

def hasitemValue : String → Form Unit
  | "item" => any (spaced identifier)
  | "data" => any ((spaced integer).sat fun n => -1 ≤ n ∧ n ≤ 32767)
  | "location" => any (spaced word)
  | _ => rangeValue

/-- An object that describes an item; the item has to be among its entries. -/
inductive hasitemObject : Form Unit where
  | intro {cs ds : List Char} {keys : List String}
    (h : list .curly (entry (keyword ["item", "data", "quantity", "location", "slot"])
      hasitemValue) cs keys ds)
    (hi : "item" ∈ keys) : hasitemObject cs () ds

def hasitem : Form Unit :=
  either (any (list .square hasitemObject)) hasitemObject

def haspermission : Form Unit :=
  any (list .curly (entry (keyword ["camera", "movement"]) fun _ =>
    any (keyword ["enabled", "disabled"])))

/-- Nothing in place of a tag. What follows may not look like the beginning of one. -/
inductive noTag : Form Unit where
  | intro {cs : List Char} (he : endsWord cs = true) (hq : cs.head? ≠ some '"') : noTag cs () cs

def gameMode : Form Unit :=
  either (any ((spaced integer).sat (· ∈ [0, 1, 2, 5])))
    (any (keyword ["s", "c", "a", "d", "survival", "default", "creative", "adventure"]))

def optionValue : String → Form Unit
  | "r" | "rm" => any ((spaced number).sat fun x => x.lt 0 = false)
  | "dx" | "dy" | "dz" | "rx" | "rxm" | "ry" | "rym" => any (spaced number)
  | "c" => any (spaced integer)
  | "l" | "lm" => any ((spaced integer).sat (0 ≤ ·))
  | "name" | "family" => negatable (spaced text)
  | "type" => negatable (any (spaced identifier))
  | "x" | "y" | "z" => any ((spaced coordinate).sat (· ≠ .view))
  | "scores" => scores
  | "tag" => negatable (either (spaced text) noTag)
  | "hasitem" => hasitem
  | "haspermission" => haspermission
  | "m" => gameMode
  | _ => fun _ _ _ => False

/-! ## Targets -/

/-- The names of the options that a version has. -/
def optionNames (version : Version) : List String :=
  ["x", "y", "z", "dx", "dy", "dz", "r", "rm", "scores", "tag", "name", "type", "family", "rx",
    "rxm", "ry", "rym", "hasitem", "l", "lm", "m", "c"] ++
  if Version.v1_19_80.atMost version then ["haspermission"] else []

def option (version : Version) : Form String :=
  entry (keyword (optionNames version)) optionValue

def selectorVariable : Form String :=
  keyword ["a", "e", "r", "s", "p", "c", "v", "initiator"]

/-- A character and a form right behind it. -/
inductive marked (m : Char) (F : Form α) : Form α where
  | intro {cs ds : List Char} {x : α} (h : F cs x ds) : marked m F (m :: cs) x ds

/-- What follows a selector variable: a list of options, or something that is none. -/
inductive options (version : Version) : Form Unit where
  | none {cs : List Char} (h : cs.head? ≠ some '[') : options version cs () cs
  | list {cs ds : List Char} {names : List String} (h : list .square (option version) cs names ds) :
    options version cs () ds

/-- A name, or a selector variable with options or without. -/
def target (version : Version) : Form Unit :=
  either (any ((marked '@' selectorVariable).seq fun _ => spaced (options version))) (spaced text)

end BedrockCommand.Form

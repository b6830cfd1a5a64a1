import BedrockCommand.Proofs.Json.Grammar
/-!
Forms of text: how words, integers, numbers, ranges and coordinates are written, and what has to
follow them so that they end where they do.
-/
namespace BedrockCommand

/-- A form of text, as a relation between a text that begins with it, what the beginning means, and
what is left of the text behind it. -/
abbrev Form (α : Type) := List Char → α → List Char → Prop

/-- What is left of a text behind the spaces in front of it. -/
def afterSpaces (cs : List Char) : List Char :=
  cs.dropWhile (· = ' ')

/-- Whether a word may end in front of a text: the text is empty, or begins with a character that
ends words. -/
def endsWord (rest : List Char) : Bool :=
  rest.head?.all isTerminating

/-- Whether a text begins like a number. -/
def beginsNumber (cs : List Char) : Bool :=
  cs.head?.any isNumberStart

/-! ## How values are written -/

/-- A text that is a word. -/
inductive WordText : List Char → String → Prop where
  | intro {w : List Char} (hne : w ≠ []) (hw : ∀ x ∈ w, isTerminating x = false)
    (hn : Numeral.isNumeric w = false) : WordText w (String.ofList w)

/-- A text that is a namespaced identifier. -/
inductive IdentifierText : List Char → String → Prop where
  | intro {w : List Char} (hne : w ≠ []) (hw : ∀ x ∈ w, Reader.isIdentifierChar x = true)
    (hc : w.count ':' ≤ 1) (hn : Numeral.isNumeric w = false) :
    IdentifierText w (String.ofList w)

/-- A sign or none, and whether it is a minus. -/
inductive SignText : List Char → Bool → Prop where
  | none : SignText [] false
  | plus : SignText ['+'] false
  | minus : SignText ['-'] true

/-- A text that is an integer of 32 bits. -/
inductive IntegerText : List Char → Int → Prop where
  | intro {s ds : List Char} {negative : Bool} (hs : SignText s negative)
    (hd : Numeral.isDigits ds = true) (hf : Numeral.fits (Numeral.signed negative ds) = true) :
    IntegerText (s ++ ds) (Numeral.signed negative ds)

/-- A text that is a number. -/
inductive NumberText : List Char → Binary64 → Prop where
  | intro {s cs : List Char} {negative : Bool} {x : Binary64} (hs : SignText s negative)
    (hx : Phrase.Unsigned negative cs x) : NumberText (s ++ cs) x

/-- The characters that mark a coordinate as an offset. -/
inductive MarksAnchor : Char → Reader.Anchor → Prop where
  | tilde : MarksAnchor '~' .place
  | caret : MarksAnchor '^' .view

namespace Form

/-! ## Forms out of others -/

/-- A form and the spaces behind it. -/
inductive spaced (F : Form α) : Form α where
  | intro {cs ds : List Char} {x : α} (h : F cs x ds) : spaced F cs x (afterSpaces ds)

/-- A form whose meaning passes a test. -/
inductive sat (F : Form α) (p : α → Prop) : Form α where
  | intro {cs ds : List Char} {x : α} (h : F cs x ds) (hp : p x) : sat F p cs x ds

/-- A form whose meaning does not matter. -/
inductive any (F : Form α) : Form Unit where
  | intro {cs ds : List Char} {x : α} (h : F cs x ds) : any F cs () ds

inductive either (F G : Form α) : Form α where
  | left {cs ds : List Char} {x : α} (h : F cs x ds) : either F G cs x ds
  | right {cs ds : List Char} {x : α} (h : G cs x ds) : either F G cs x ds

/-- A form, and another one for what it means. -/
inductive seq (F : Form α) (G : α → Form Unit) : Form α where
  | intro {cs ds es : List Char} {x : α} (hf : F cs x ds) (hg : G x ds () es) : seq F G cs x es

/-- A character, the spaces behind it, and a form. -/
inductive symbol (x : Char) (F : Form α) : Form α where
  | intro {cs ds : List Char} {y : α} (h : F (afterSpaces cs) y ds) : symbol x F (x :: cs) y ds

/-- A form with an exclamation mark in front of it or without one. -/
inductive negatable (F : Form α) : Form α where
  | plain {cs ds : List Char} {x : α} (hn : cs.head? ≠ some '!') (h : F cs x ds) :
    negatable F cs x ds
  | negated {cs ds : List Char} {x : α} (h : symbol '!' F cs x ds) : negatable F cs x ds

/-- A value that ends where a word may end. -/
inductive written (writes : List Char → α → Prop) : Form α where
  | intro {cs rest : List Char} {x : α} (h : writes cs x) (he : endsWord rest = true) :
    written writes (cs ++ rest) x rest

/-! ## Values -/

def word : Form String := written WordText

def identifier : Form String := written IdentifierText

def integer : Form Int := written IntegerText

def number : Form Binary64 := written NumberText

/-- A quoted string that ends on its line. -/
inductive quoted : Form Unit where
  | intro {cs rest : List Char} (h : Phrase.Quoted cs) (hn : '\n' ∉ cs) :
    quoted (cs ++ rest) () rest

def text : Form Unit := either quoted (any word)

/-- A range of integers: an integer that no points follow, or two points between two integers, the
greater one last, or with an integer on one side only. Spaces may stand around the points. -/
inductive range : Form Unit where
  | single {cs rest : List Char} {n : Int} (h : IntegerText cs n)
    (hp : (afterSpaces rest).head? ≠ some '.') (he : endsWord rest = true) :
    range (cs ++ rest) () rest
  | above {cs ps rest : List Char} {n : Int} (h : IntegerText cs n)
    (hp : afterSpaces ps = '.' :: '.' :: rest) (hn : beginsNumber (afterSpaces rest) = false)
    (he : endsWord rest = true) : range (cs ++ ps) () rest
  | between {cs ps qs ds rest : List Char} {m n : Int} (hm : IntegerText cs m)
    (hp : afterSpaces ps = '.' :: '.' :: qs) (hn : IntegerText ds n)
    (hq : afterSpaces qs = ds ++ rest) (hle : m ≤ n) (he : endsWord rest = true) :
    range (cs ++ ps) () rest
  | below {ps qs ds rest : List Char} {n : Int} (hp : afterSpaces ps = '.' :: '.' :: qs)
    (hn : IntegerText ds n) (hq : afterSpaces qs = ds ++ rest) (he : endsWord rest = true) :
    range ps () rest

/-- What stands behind the mark of a coordinate: a number, or nothing. -/
inductive offset : Form Unit where
  | number {cs ds : List Char} {x : Binary64} (h : number cs x ds) : offset cs () ds
  | none {rest : List Char} (hn : beginsNumber rest = false) (he : endsWord rest = true) :
    offset rest () rest

inductive coordinate : Form Reader.Anchor where
  | absolute {cs ds : List Char} {x : Binary64} (h : number cs x ds) : coordinate cs .world ds
  | marked {m : Char} {a : Reader.Anchor} {cs ds : List Char} (hm : MarksAnchor m a)
    (h : offset cs () ds) : coordinate (m :: cs) a ds

end Form
end BedrockCommand

import BedrockCommand.Grammar.Json
import BedrockCommand.Proofs.Number.Rounding
/-!
The grammar of JSON texts: which texts are values, and which leaves they have. Each phrase is a
relation between the cursor in front of it, its leaves and the cursor behind it.
-/
namespace BedrockCommand

/-- A leaf of a JSON text: what it is, and where it begins. -/
structure JsonLeaf where
  kind : TokenKind
  value : TokenValue
  start : Position
deriving DecidableEq, Repr

def Token.leaf (t : Token) : JsonLeaf :=
  ⟨t.kind, t.value, t.span.start⟩

namespace Phrase

/-! ## Texts of leaves -/

/-- What may stand between two quotes: every quote in it has a backslash in front, and it does not
end with a backslash. -/
structure QuotedBody (cs : List Char) : Prop where
  escaped : ∀ before after, cs = before ++ '"' :: after → before.getLast? = some '\\'
  closed : cs.getLast? ≠ some '\\'

/-- A text in quotes. -/
inductive Quoted : List Char → Prop where
  | intro {body : List Char} (h : QuotedBody body) : Quoted ('"' :: body ++ ['"'])

def minus (negative : Bool) : List Char :=
  if negative then ['-'] else []

/-- Digits, with a point and more digits behind or none, and what their value becomes with a sign,
which is the nearest number. -/
inductive Unsigned (negative : Bool) : List Char → Binary64 → Prop where
  | whole {ds : List Char} {x : Binary64} (hd : Numeral.isDigits ds = true)
    (hx : Binary64.RoundsTo negative (Numeral.value ds) x) : Unsigned negative ds x
  | fraction {ds es : List Char} {x : Binary64} (hd : Numeral.isDigits ds = true)
    (he : Numeral.isDigits es = true)
    (hx : Binary64.RoundsTo negative (Numeral.value (ds ++ es) / 10 ^ es.length) x) :
    Unsigned negative (ds ++ '.' :: es) x

/-- A decimal number, with a minus in front or none. -/
inductive Decimal : List Char → Binary64 → Prop where
  | intro (negative : Bool) {cs : List Char} {x : Binary64} (h : Unsigned negative cs x) :
    Decimal (minus negative ++ cs) x

/-- A text in quotes as a leaf of a kind. -/
inductive Text (kind : TokenKind) : List Char → TokenKind → TokenValue → Prop where
  | intro {cs : List Char} (h : Quoted cs) : Text kind cs kind .none

inductive Number : List Char → TokenKind → TokenValue → Prop where
  | intro {cs : List Char} {x : Binary64} (h : Decimal cs x) : Number cs .number (.number x)

/-- A name that stands for a value. -/
inductive Constant (dialect : JsonDialect) : List Char → TokenKind → TokenValue → Prop where
  | true : Constant dialect "true".toList .boolean (.boolean true)
  | false : Constant dialect "false".toList .boolean (.boolean false)
  | null (h : dialect = .withNull) : Constant dialect "null".toList .option .none

end Phrase

/-! ## Phrases -/

/-- A phrase from one cursor to another, with its leaves. -/
abbrev Phrase := Cursor → List JsonLeaf → Cursor → Prop

namespace Phrase

/-- Any number of spaces. -/
inductive Spaces : Cursor → Cursor → Prop where
  | nil (c : Cursor) : Spaces c c
  | cons {rest : List Char} {p : Position} {d : Cursor} (h : Spaces ⟨rest, p.next ' '⟩ d) :
    Spaces ⟨' ' :: rest, p⟩ d

/-- A character and spaces after it. -/
inductive Symbol (x : Char) : Cursor → Cursor → Prop where
  | intro {rest : List Char} {p : Position} {d : Cursor} (h : Spaces ⟨rest, p.next x⟩ d) :
    Symbol x ⟨x :: rest, p⟩ d

/-- A leaf and spaces after it. -/
inductive leaf (writes : List Char → TokenKind → TokenValue → Prop) : Phrase where
  | intro {cs rest : List Char} {p : Position} {kind : TokenKind} {value : TokenValue} {d : Cursor}
    (hw : writes cs kind value) (hs : Spaces ⟨rest, p.after cs⟩ d) :
    leaf writes ⟨cs ++ rest, p⟩ [⟨kind, value, p⟩] d

/-- One phrase or more with commas between them. -/
inductive commas (P : Phrase) : Phrase where
  | one {c d : Cursor} {ls : List JsonLeaf} (h : P c ls d) : commas P c ls d
  | more {c d e f : Cursor} {ls ms : List JsonLeaf} (h : P c ls d) (hx : Symbol ',' d e)
    (ht : commas P e ms f) : commas P c (ls ++ ms) f

/-- Phrases in brackets with commas between them, or nothing in brackets. -/
inductive container (b : Brackets) (P : Phrase) : Phrase where
  | empty {c d e : Cursor} (ho : Symbol b.opening c d) (hc : Symbol b.closing d e) :
    container b P c [] e
  | full {c d e f : Cursor} {ls : List JsonLeaf} (ho : Symbol b.opening c d)
    (h : commas P d ls e) (hc : Symbol b.closing e f) : container b P c ls f

/-- A key, a colon and a phrase. -/
inductive member (P : Phrase) : Phrase where
  | intro {c d e f : Cursor} {ks ls : List JsonLeaf} (hk : leaf (Text .option) c ks d)
    (hx : Symbol ':' d e) (h : P e ls f) : member P c (ks ++ ls) f

def array (P : Phrase) : Phrase :=
  container .square P

def object (P : Phrase) : Phrase :=
  container .curly (member P)

/-- A value without others inside it, or one of two other phrases. -/
inductive choice (dialect : JsonDialect) (A O : Phrase) : Phrase where
  | string {c d : Cursor} {ls : List JsonLeaf} (h : leaf (Text .string) c ls d) :
    choice dialect A O c ls d
  | number {c d : Cursor} {ls : List JsonLeaf} (h : leaf Number c ls d) : choice dialect A O c ls d
  | constant {c d : Cursor} {ls : List JsonLeaf} (h : leaf (Constant dialect) c ls d) :
    choice dialect A O c ls d
  | array {c d : Cursor} {ls : List JsonLeaf} (h : A c ls d) : choice dialect A O c ls d
  | object {c d : Cursor} {ls : List JsonLeaf} (h : O c ls d) : choice dialect A O c ls d

def never : Phrase := fun _ _ _ => False

/-- A value in which arrays and objects nest to a depth. -/
def value (dialect : JsonDialect) : Nat → Phrase
  | 0 => choice dialect never never
  | depth + 1 => choice dialect (array (value dialect depth)) (object (value dialect depth))

/-- A value of a shape. The outermost array or object of a shape that asks for it adds one to the
depth. -/
def shaped (dialect : JsonDialect) : JsonShape → Phrase
  | .any => value dialect maxNesting
  | .object => object (value dialect maxNesting)
  | .array => array (value dialect maxNesting)

end Phrase

/-- A JSON text of a shape that starts at a position, and its leaves: spaces, and a value up to the
end. -/
def IsJson (dialect : JsonDialect) (shape : JsonShape) (start : Position) (text : List Char)
    (leaves : List JsonLeaf) : Prop :=
  ∃ c d, Phrase.Spaces ⟨text, start⟩ c ∧ Phrase.shaped dialect shape c leaves d ∧ d.rest = []

end BedrockCommand

/-!
Places in a source text: lines and columns, and the stretches between two places.
-/
namespace BedrockCommand

/-- A line and a column, both in the numbering of the caller. Columns count characters. -/
structure Position where
  line : Nat
  column : Nat
deriving DecidableEq, Repr, Inhabited

namespace Position

/-- Where a text starts when nothing else is said. -/
def origin : Position := ⟨1, 0⟩

/-- The earlier line comes first, and on one line the smaller column. -/
instance : LT Position where
  lt p q := p.line < q.line ∨ p.line = q.line ∧ p.column < q.column

instance : LE Position where
  le p q := p.line < q.line ∨ p.line = q.line ∧ p.column ≤ q.column

instance (p q : Position) : Decidable (p < q) :=
  inferInstanceAs (Decidable (_ ∨ _))

instance (p q : Position) : Decidable (p ≤ q) :=
  inferInstanceAs (Decidable (_ ∨ _))

def order (p q : Position) : Ordering :=
  if p < q then .lt else if p = q then .eq else .gt

/-- The place after a character that stands at a place. -/
def next (p : Position) (c : Char) : Position :=
  if c = '\n' then ⟨p.line + 1, 0⟩ else ⟨p.line, p.column + 1⟩

/-- The place after a text that starts at a place. -/
def after (p : Position) (cs : List Char) : Position :=
  cs.foldl next p

@[simp] theorem after_nil (p : Position) : p.after [] = p := rfl

@[simp] theorem after_cons (p : Position) (c : Char) (cs : List Char) :
    p.after (c :: cs) = (p.next c).after cs := rfl

theorem after_append (p : Position) (cs ds : List Char) :
    p.after (cs ++ ds) = (p.after cs).after ds :=
  List.foldl_append

instance : ToString Position where
  toString p := toString p.line ++ "." ++ toString p.column

end Position

/-- A stretch of source, from the place of its first character to the place after its
last one. -/
structure Span where
  start : Position
  stop : Position
deriving DecidableEq, Repr, Inhabited

/-- Two places given in the wrong order for a span. -/
structure ReversedSpan where
  start : Position
  stop : Position
deriving DecidableEq, Repr

/-- What is said about a reversed span. -/
def ReversedSpan.message (r : ReversedSpan) : String :=
  "Span end (" ++ toString r.stop ++ ") < begin (" ++ toString r.start ++ ")"

namespace Span

/-- The span between two places, which have to be in order. -/
def between (start stop : Position) : Except ReversedSpan Span :=
  if stop < start then .error ⟨start, stop⟩ else .ok ⟨start, stop⟩

/-- The span of no characters at a place. -/
def empty (p : Position) : Span := ⟨p, p⟩

/-- Whether a span covers no characters. -/
def isEmpty (s : Span) : Bool := s.start = s.stop

instance : ToString Span where
  toString s := toString s.start ++ "-" ++ toString s.stop

end Span
end BedrockCommand

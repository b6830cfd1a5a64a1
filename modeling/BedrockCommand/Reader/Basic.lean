import BedrockCommand.Diagnostic.SyntaxError
import BedrockCommand.Source.Cursor
/-!
Readers: what takes a value from the text under a cursor, or says what is wrong there. A
reader that fails leaves the cursor where it gave up.
-/
namespace BedrockCommand

/-- Reads a value at a cursor. -/
def Reader (α : Type) : Type :=
  Cursor → Except SyntaxError α × Cursor

namespace Reader

/-- Gives up where the cursor is. -/
def fail (e : SyntaxError) : Reader α :=
  fun c => (.error e, c)

def andThen (r : Reader α) (next : α → Reader β) : Reader β := fun c =>
  match r c with
  | (.ok x, c') => next x c'
  | (.error e, c') => (.error e, c')

instance : Monad Reader where
  pure x := fun c => (.ok x, c)
  bind := andThen

@[simp] theorem pure_apply (x : α) (c : Cursor) : (pure x : Reader α) c = (.ok x, c) := rfl

@[simp] theorem fail_apply (e : SyntaxError) (c : Cursor) :
    (fail e : Reader α) c = (.error e, c) := rfl

theorem bind_apply (r : Reader α) (next : α → Reader β) (c : Cursor) :
    (r >>= next) c = match r c with
      | (.ok x, c') => next x c'
      | (.error e, c') => (.error e, c') := rfl

/-- A reader that goes on after another one gives a value only if both do. -/
theorem bind_eq_ok {r : Reader α} {next : α → Reader β} {c d : Cursor} {y : β} :
    (r >>= next) c = (.ok y, d) ↔ ∃ x c', r c = (.ok x, c') ∧ next x c' = (.ok y, d) := by
  rw [bind_apply]
  constructor
  · intro h
    split at h
    · next x c' hr => exact ⟨x, c', hr, h⟩
    · simp at h
  · rintro ⟨x, c', hr, h⟩
    rw [hr]
    exact h

/-- A reader that goes on after another one fails where the other one does, or behind it. -/
theorem bind_eq_error {r : Reader α} {next : α → Reader β} {c d : Cursor} {e : SyntaxError} :
    (r >>= next) c = (.error e, d) ↔
      r c = (.error e, d) ∨ ∃ x c', r c = (.ok x, c') ∧ next x c' = (.error e, d) := by
  rw [bind_apply]
  rcases r c with ⟨e' | x, c'⟩ <;> simp [and_assoc]

theorem ok_inj {x y : α} {c d : Cursor}
    (h : ((.ok x, c) : Except SyntaxError α × Cursor) = (.ok y, d)) : x = y ∧ c = d := by
  obtain ⟨hx, hc⟩ := Prod.mk.inj h
  exact ⟨Except.ok.inj hx, hc⟩

/-- Looks at the text without reading it. -/
def look (f : Cursor → α) : Reader α :=
  fun c => (.ok (f c), c)

def move (f : Cursor → Cursor) : Reader Unit :=
  fun c => (.ok (), f c)

/-- Reads the characters that pass a test. -/
def takeWhile (p : Char → Bool) : Reader (List Char) :=
  fun c => (.ok (c.ahead p), c.skipWhile p)

def exactly (expected : Char) : Reader Unit := fun c =>
  if c.isAt expected then (.ok (), c.advance)
  else (.error (.expectedChar expected), c)

def spaces : Reader Unit :=
  move Cursor.skipSpaces

/-- Reads one given character and the spaces after it. -/
def symbol (expected : Char) : Reader Unit := do
  exactly expected
  spaces

/-- Reads the spaces after a value, which has to end here. -/
def argumentEnd : Reader Unit := do
  if ← look Cursor.terminated then spaces else fail .expectedTerminator

/-- Reads an exclamation mark and the spaces after it, if there is one. -/
def negation : Reader Unit := do
  if ← look (·.isAt '!') then symbol '!'

/-- Past the spaces onto a character that passes a test; without such a character after the
spaces, nothing is read. -/
def spacesBefore (p : Char → Bool) : Reader Bool := fun c =>
  match c.skipSpaces.rest with
  | x :: _ => if p x then (.ok true, c.skipSpaces) else (.ok false, c)
  | [] => (.ok false, c)

end Reader
end BedrockCommand

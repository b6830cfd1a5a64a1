import BedrockCommand.Source.Cursor
/-!
Where a list goes on after text that is not understood: at the next comma or closing bracket
that belongs to the list itself.
-/
namespace BedrockCommand

/-- How far it is to the next comma or to the closing bracket, at bracket depth 0 and outside
quotes, or to the end of the line. Quotes are skipped whole; a quote with a backslash in front
does not end them, though it can open them. What closes a bracket need not be of its kind. -/
def separatorOffset (close : Char) (quoted : Bool) (depth : Nat) : List Char → Nat
  | [] => 0
  | '\\' :: '"' :: cs => 2 + separatorOffset close true depth cs
  | c :: cs =>
    if c = '\n' then 0
    else if c = '"' then 1 + separatorOffset close (!quoted) depth cs
    else if quoted then 1 + separatorOffset close true depth cs
    else if c = '[' ∨ c = '{' then 1 + separatorOffset close false (depth + 1) cs
    else if (c = ']' ∨ c = '}') ∧ 0 < depth then 1 + separatorOffset close false (depth - 1) cs
    else if depth = 0 ∧ (c = ',' ∨ c = close) then 0
    else 1 + separatorOffset close false depth cs

/-- At the next place where a list with the given closing bracket goes on. -/
def Cursor.toSeparator (c : Cursor) (close : Char) : Cursor :=
  c.skip (separatorOffset close false 0 c.rest)

end BedrockCommand

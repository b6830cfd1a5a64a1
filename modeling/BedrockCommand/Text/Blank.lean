/-!
Blank characters, and texts with the blanks at their ends taken off.
-/
namespace BedrockCommand.Text

/-- The characters that Unicode gives the property White_Space. -/
def isBlank (c : Char) : Bool :=
  let n := c.toNat
  (9 ≤ n && n ≤ 13) || n == 0x20 || n == 0x85 || n == 0xa0 || n == 0x1680 ||
    (0x2000 ≤ n && n ≤ 0x200a) || n == 0x2028 || n == 0x2029 || n == 0x202f ||
    n == 0x205f || n == 0x3000

/-- The text without its leading blanks. -/
def trimStart (cs : List Char) : List Char :=
  cs.dropWhile isBlank

/-- The text without its trailing blanks. A blank stays exactly when something
that is not blank comes after it. -/
def trimEnd : List Char → List Char
  | [] => []
  | c :: cs =>
    match trimEnd cs with
    | [] => if isBlank c then [] else [c]
    | kept => c :: kept

/-- The text without the blanks at both ends. -/
def trim (cs : List Char) : List Char :=
  trimEnd (trimStart cs)

/-- What is taken off the end of a text is blank. -/
theorem exists_trimEnd_append (cs : List Char) :
    ∃ blanks, cs = trimEnd cs ++ blanks ∧ ∀ c ∈ blanks, isBlank c = true := by
  induction cs with
  | nil => exact ⟨[], rfl, by simp⟩
  | cons c cs ih =>
    obtain ⟨blanks, hcs, hb⟩ := ih
    rw [trimEnd]
    split
    · next h =>
      rw [h, List.nil_append] at hcs
      split
      · next hc => exact ⟨c :: cs, rfl, by simpa [hc] using hcs ▸ hb⟩
      · exact ⟨cs, rfl, hcs ▸ hb⟩
    · exact ⟨blanks, by rw [List.cons_append, ← hcs], hb⟩

theorem mem_of_mem_trimEnd {c : Char} {cs : List Char} (h : c ∈ trimEnd cs) : c ∈ cs := by
  obtain ⟨blanks, hcs, -⟩ := exists_trimEnd_append cs
  exact hcs ▸ List.mem_append_left _ h

end BedrockCommand.Text

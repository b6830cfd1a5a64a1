import BedrockCommand.Proofs.Source.Line
import BedrockCommand.Source.LineIndex
import Mathlib.Logic.Function.Iterate
/-!
The index of the lines of a text undoes what a cursor does: the position of an offset is where a
cursor stands after so many characters, and the offset of that position is the offset again.
-/
namespace BedrockCommand

namespace Cursor

theorem skip_zero (c : Cursor) : c.skip 0 = c := rfl

theorem advance_skip (c : Cursor) (k : Nat) : (c.skip k).advance = c.skip (k + 1) := by
  rw [advance, skip, skip, skip, List.drop_drop, ← Position.after_append, ← List.take_add]

/-- One character after another, so many times. -/
theorem iterate_advance (c : Cursor) (k : Nat) : advance^[k] c = c.skip k := by
  induction k with
  | zero => rw [skip_zero, Function.iterate_zero, id]
  | succ k ih => rw [Function.iterate_succ_apply', ih, advance_skip]

end Cursor

namespace LineIndex

variable {cs : List Char} {k n : Nat}

theorem lt_of_mem_startsAfter {s : Nat} (h : s ∈ startsAfter n cs) : n < s := by
  induction cs generalizing n with
  | nil => simp [startsAfter] at h
  | cons x cs ih =>
    unfold startsAfter at h
    split at h
    · rcases List.mem_cons.mp h with rfl | h
      · exact Nat.lt_succ_self n
      · exact Nat.lt_of_succ_lt (ih h)
    · exact Nat.lt_of_succ_lt (ih h)

theorem countP_startsAfter_self (n : Nat) (cs : List Char) :
    (startsAfter n cs).countP (· ≤ n) = 0 := by
  rw [List.countP_eq_zero]
  intro s hs
  simpa using lt_of_mem_startsAfter hs

/-- Where a cursor stands after k characters of a text of which the first one has offset n: still
on the line where it started, or on the line of the last start up to there. -/
theorem after_take_cases (n : Nat) (p : Position) (h : k ≤ cs.length) :
    ((startsAfter n cs).countP (· ≤ n + k) = 0 ∧
      p.after (cs.take k) = ⟨p.line, p.column + k⟩) ∨
    ∃ row start, (startsAfter n cs).countP (· ≤ n + k) = row + 1 ∧
      (startsAfter n cs)[row]? = some start ∧ start ≤ n + k ∧
      p.after (cs.take k) = ⟨p.line + (row + 1), n + k - start⟩ := by
  induction cs generalizing n p k with
  | nil =>
    obtain rfl : k = 0 := by simpa using h
    exact .inl ⟨rfl, rfl⟩
  | cons x cs ih =>
    cases k with
    | zero => exact .inl ⟨countP_startsAfter_self n _, rfl⟩
    | succ k =>
      have hk : n + (k + 1) = n + 1 + k := by omega
      have ih := ih (n + 1) (p.next x) (Nat.le_of_succ_le_succ h)
      rw [List.take_succ_cons, Position.after_cons, hk, startsAfter]
      split
      · next hx =>
        -- The line break starts a line, and the character behind it stands in column 0.
        rw [Position.next, if_pos hx] at ih ⊢
        rw [List.countP_cons_of_pos (by simp)]
        rcases ih with ⟨hcount, hafter⟩ | ⟨row, start, hcount, hstart, hle, hafter⟩
        · refine .inr ⟨0, n + 1, by rw [hcount], rfl, Nat.le_add_right .., ?_⟩
          rw [hafter, Nat.zero_add, Nat.add_sub_cancel_left]
        · refine .inr ⟨row + 1, start, by rw [hcount], hstart, hle, ?_⟩
          rw [hafter, Nat.add_assoc p.line, Nat.add_comm 1]
      · next hx =>
        rw [Position.next, if_neg hx] at ih ⊢
        rcases ih with ⟨hcount, hafter⟩ | h
        · refine .inl ⟨hcount, ?_⟩
          rw [hafter, Nat.add_right_comm, Nat.add_assoc]
        · exact .inr h

variable (first : Position)

/-- The position of an offset is where a cursor stands after so many characters. -/
theorem position_ofText (h : k ≤ cs.length) :
    (ofText cs first).position k = first.after (cs.take k) := by
  have hzero : (ofText cs first).starts.countP (· ≤ k) =
      (startsAfter 0 cs).countP (· ≤ 0 + k) + 1 := by
    rw [ofText, List.countP_cons_of_pos (by simp), Nat.zero_add]
  unfold position
  simp only [hzero, Nat.add_sub_cancel]
  rcases after_take_cases 0 first h with ⟨hcount, hafter⟩ | ⟨row, start, hcount, hstart, -, hafter⟩
  · rw [hcount, hafter]
    rfl
  · rw [hcount, hafter]
    simp [ofText, firstColumn, List.getD, hstart]

/-- The offset of the place where a cursor stands after k characters is k. -/
theorem offset?_after_take (h : k ≤ cs.length) :
    (ofText cs first).offset? (first.after (cs.take k)) = some k := by
  unfold offset?
  rcases after_take_cases 0 first h with ⟨-, hafter⟩ | ⟨row, start, -, hstart, hle, hafter⟩
  · rw [hafter]
    simp [ofText, firstColumn, Nat.min_eq_left h]
  · have hmin : min (start + (k - start)) cs.length = k := by omega
    rw [hafter]
    simp [ofText, firstColumn, hstart, hmin]

/-- The offset of the place behind a piece at the front of the text. -/
theorem offset?_after {before rest : List Char} (h : cs = before ++ rest) :
    (ofText cs first).offset? (first.after before) = some before.length := by
  have htake : cs.take before.length = before := by rw [h, List.take_left]
  have hlength : before.length ≤ cs.length := by simp [h]
  have hoffset := offset?_after_take first hlength
  rwa [htake] at hoffset

end LineIndex
end BedrockCommand

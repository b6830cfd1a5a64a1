import BedrockCommand.Proofs.Source.Line
/-!
The place where a list goes on lies on the line, and it is further along unless the list goes on
right here.
-/
namespace BedrockCommand

theorem separatorOffset_append {tail : List Char} (ht : LineEnd tail) {line : List Char}
    (hl : '\n' ∉ line) (close : Char) (quoted : Bool) (depth : Nat) :
    separatorOffset close quoted depth (line ++ tail) =
      separatorOffset close quoted depth line := by
  have hnext {x : Char} {cs : List Char} (h : '\n' ∉ x :: cs) : '\n' ∉ cs := fun h' =>
    h (List.mem_cons_of_mem x h')
  -- An escaped quote takes two characters at once, and the line may end between them.
  fun_induction separatorOffset close quoted depth line with
  | case1 => rcases ht.cases with rfl | ⟨cs, rfl⟩ <;> simp [separatorOffset]
  | case2 quoted depth cs ih =>
    rw [List.cons_append, List.cons_append, separatorOffset, ih (hnext (hnext hl))]
  | case3 => simp at hl
  | case4 quoted depth cs he hn ih =>
    rw [List.cons_append, separatorOffset.eq_3 _ _ _ _ _ (ht.escape_append he)]
    simp [ih (hnext hl)]
  | case5 depth x cs he hn hq ih =>
    rw [List.cons_append, separatorOffset.eq_3 _ _ _ _ _ (ht.escape_append he)]
    simp [hn, hq, ih (hnext hl)]
  | case6 quoted depth x cs he hn hq hi ho ih =>
    rw [List.cons_append, separatorOffset.eq_3 _ _ _ _ _ (ht.escape_append he)]
    simp [hn, hq, hi, ho, ih (hnext hl)]
  | case7 quoted depth x cs he hn hq hi ho hc ih =>
    rw [List.cons_append, separatorOffset.eq_3 _ _ _ _ _ (ht.escape_append he), if_neg hn,
      if_neg hq, if_neg hi, if_neg ho, if_pos hc, ih (hnext hl)]
  | case8 quoted depth x cs he hn hq hi ho hc hs =>
    rw [List.cons_append, separatorOffset.eq_3 _ _ _ _ _ (ht.escape_append he), if_neg hn,
      if_neg hq, if_neg hi, if_neg ho, if_neg hc, if_pos hs]
  | case9 quoted depth x cs he hn hq hi ho hc hs ih =>
    rw [List.cons_append, separatorOffset.eq_3 _ _ _ _ _ (ht.escape_append he), if_neg hn,
      if_neg hq, if_neg hi, if_neg ho, if_neg hc, if_neg hs, ih (hnext hl)]

theorem separatorOffset_le (close : Char) (quoted : Bool) (depth : Nat) (line : List Char) :
    separatorOffset close quoted depth line ≤ line.length := by
  fun_induction separatorOffset close quoted depth line <;> simp <;> omega

/-- What stops the way to a separator: the end of the line, or the separator. -/
theorem separatorOffset_stops (close : Char) (quoted : Bool) (depth : Nat) (line : List Char) :
    ∀ x, (line.drop (separatorOffset close quoted depth line)).head? = some x →
      x = '\n' ∨ x = ',' ∨ x = close := by
  fun_induction separatorOffset close quoted depth line with
  | case1 | case3 => simp
  | case2 quoted depth cs ih => simpa [Nat.add_comm 2] using ih
  | case8 quoted depth x cs he hn hq hi ho hc hs =>
    intro y hy
    obtain rfl : x = y := by simpa using hy
    exact .inr hs.2
  | case4 quoted depth cs he hn ih => simpa [Nat.add_comm 1] using ih
  | case5 depth x cs he hn hq ih => simpa [Nat.add_comm 1] using ih
  | case6 quoted depth x cs he hn hq hi ho ih => simpa [Nat.add_comm 1] using ih
  | case7 quoted depth x cs he hn hq hi ho hc ih => simpa [Nat.add_comm 1] using ih
  | case9 quoted depth x cs he hn hq hi ho hc hs ih => simpa [Nat.add_comm 1] using ih

/-- Off the separators of a list there is something to skip. -/
theorem separatorOffset_pos {close x : Char} {cs : List Char} (hn : x ≠ '\n') (hc : x ≠ close)
    (hs : x ≠ ',') : 0 < separatorOffset close false 0 (x :: cs) := by
  by_cases he : ∃ ds, x = '\\' ∧ cs = '"' :: ds
  · obtain ⟨ds, rfl, rfl⟩ := he
    rw [separatorOffset]
    omega
  · rw [separatorOffset.eq_3 _ _ _ _ _ fun ds h h' => he ⟨ds, h, h'⟩]
    have hstop : ¬ (0 = 0 ∧ (x = ',' ∨ x = close)) := by simp [hs, hc]
    rw [if_neg hn, if_neg hstop]
    repeat' split
    all_goals omega

theorem Cursor.toSeparator_append {line tail : List Char} {p : Position} (ht : LineEnd tail)
    (hl : '\n' ∉ line) (close : Char) : (Cursor.mk (line ++ tail) p).toSeparator close =
      ⟨line.drop (separatorOffset close false 0 line) ++ tail,
        p.after (line.take (separatorOffset close false 0 line))⟩ := by
  rw [toSeparator, separatorOffset_append ht hl, skip_append _ _ (separatorOffset_le ..)]

theorem Cursor.ahead_toSeparator (c : Cursor) (close : Char) : c.Ahead (c.toSeparator close) := by
  obtain ⟨tail, ht, hc⟩ := c.exists_line
  rw [hc, toSeparator_append ht c.newline_notMem_line]
  exact ahead_append _ _ c.newline_notMem_line _

theorem Cursor.length_line_toSeparator {c : Cursor} {close : Char} (hl : c.lineContinues = true)
    (hc : c.isAt close = false) (hs : c.isAt ',' = false) :
    (c.toSeparator close).line.length < c.line.length := by
  obtain ⟨_ | ⟨x, cs⟩, p⟩ := c
  · simp [lineContinues] at hl
  · have hpos : 0 < separatorOffset close false 0 (x :: cs) :=
      separatorOffset_pos (by simpa [lineContinues] using hl) (by simpa using hc)
        (by simpa using hs)
    have := (ahead_toSeparator ⟨x :: cs, p⟩ close).length_line
    simp only [toSeparator, skip, List.length_drop, List.length_cons] at this ⊢
    omega

end BedrockCommand

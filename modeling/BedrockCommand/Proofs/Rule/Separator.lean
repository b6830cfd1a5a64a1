import BedrockCommand.Proofs.Source.Separator
import BedrockCommand.Rule.List
import Mathlib.Data.List.Induction
/-!
Where a list goes on behind text that it does not understand, told index by index: outside of quoted
strings, with no bracket open in front, at a comma or at the closing bracket. Looking for that place
finds the first such index of the line, or the end of the line if there is none.
-/
namespace BedrockCommand

namespace Text

/-- How far it is to the first quote without a backslash in front, or to the end of the text. The
character in front of the text is given. -/
def closingQuote (before : Char) : List Char → Nat
  | [] => 0
  | x :: cs => if x = '"' ∧ before ≠ '\\' then 0 else closingQuote x cs + 1

/-- A text with none in place of each character of a quoted string. A quoted string begins with a
quote and ends with its closing quote, or with the text. -/
def unquoted : List Char → List (Option Char)
  | [] => []
  | x :: cs =>
    if x = '"' then
      (x :: cs.take (closingQuote x cs + 1)).map (fun _ => none) ++
        unquoted (cs.drop (closingQuote x cs + 1))
    else some x :: unquoted cs
termination_by cs => cs.length

/-- How many brackets are open behind a character. A closing bracket closes one, of whatever kind,
if there is one; what belongs to a quoted string is no bracket. -/
def openBehind (n : Nat) : Option Char → Nat
  | some x => if x = '[' ∨ x = '{' then n + 1 else if x = ']' ∨ x = '}' then n - 1 else n
  | none => n

end Text

/-- The least number below a bound that has a property, or the bound if there is none. -/
structure FirstBelow (P : Nat → Prop) (bound i : Nat) : Prop where
  le : i ≤ bound
  before : ∀ j < i, ¬ P j
  found : i = bound ∨ P i

/-- Whether a list goes on at an index of a text in front of which some brackets are open. None of
them is open in front of the index any more, nor is any other, and there is a comma or the closing
bracket, outside of quoted strings. -/
structure Brackets.ResumesAt (b : Brackets) (depth : Nat) (cs : List (Option Char)) (i : Nat) :
    Prop where
  level : (cs.take i).foldl Text.openBehind depth = 0
  mark : ∃ x, cs[i]? = some (some x) ∧ (x = ',' ∨ x = b.closing)

open Text (closingQuote unquoted openBehind)

variable {b : Brackets} {depth n i : Nat} {x : Char} {cs : List Char} {m : Option Char}
  {ms : List (Option Char)}

/-! ## Along a text -/

namespace FirstBelow

variable {P Q : Nat → Prop}

theorem zero (h : P 0) : FirstBelow P n 0 :=
  ⟨Nat.zero_le n, nofun, .inr h⟩

theorem succ (h0 : ¬ P 0) (hQ : ∀ j, P (j + 1) ↔ Q j) (h : FirstBelow Q n i) :
    FirstBelow P (n + 1) (i + 1) where
  le := Nat.succ_le_succ h.le
  before j hj := by
    cases j with
    | zero => exact h0
    | succ j => exact (hQ j).not.mpr (h.before j (Nat.lt_of_succ_lt_succ hj))
  found := h.found.imp (congrArg (· + 1)) (hQ i).mpr

end FirstBelow

namespace Brackets

theorem resumesAt_zero : b.ResumesAt depth (m :: ms) 0 ↔
    depth = 0 ∧ ∃ x, m = some x ∧ (x = ',' ∨ x = b.closing) :=
  ⟨fun h => ⟨h.level, by simpa using h.mark⟩, fun h => ⟨h.1, by simpa using h.2⟩⟩

theorem resumesAt_succ :
    b.ResumesAt depth (m :: ms) (i + 1) ↔ b.ResumesAt (openBehind depth m) ms i :=
  ⟨fun h => ⟨h.level, by simpa using h.mark⟩, fun h => ⟨h.level, by simpa using h.mark⟩⟩

/-- A list does not go on in a quoted string, which does not change what is open either. -/
theorem firstBelow_quoted (h : FirstBelow (b.ResumesAt depth ms) n i) (qs : List Char) :
    FirstBelow (b.ResumesAt depth (qs.map (fun _ => none) ++ ms)) (qs.length + n)
      (qs.length + i) := by
  induction qs with
  | nil => simpa using h
  | cons q qs ih =>
    have hnone : ¬ b.ResumesAt depth (none :: (qs.map (fun _ => none) ++ ms)) 0 := by
      simp [resumesAt_zero]
    rw [List.length_cons, Nat.add_right_comm, Nat.add_right_comm _ 1 i]
    exact ih.succ hnone fun j => resumesAt_succ

end Brackets

/-! ## Looking for a separator -/

theorem separatorOffset_opening (close : Char) (depth : Nat) (cs : List Char) :
    separatorOffset close false depth ('"' :: cs) = separatorOffset close true depth cs + 1 := by
  simp [separatorOffset, Nat.add_comm]

theorem separatorOffset_closing (close : Char) (depth : Nat) (cs : List Char) :
    separatorOffset close true depth ('"' :: cs) = separatorOffset close false depth cs + 1 := by
  simp [separatorOffset, Nat.add_comm]

theorem separatorOffset_inside (close : Char) (depth : Nat) (hn : x ≠ '\n') (hq : x ≠ '"')
    (he : ∀ ds, x = '\\' → cs = '"' :: ds → False) :
    separatorOffset close true depth (x :: cs) = separatorOffset close true depth cs + 1 := by
  rw [separatorOffset.eq_3 _ _ _ _ _ he, if_neg hn, if_neg hq, if_pos rfl, Nat.add_comm]

/-- A quoted string is passed over whole, up to its closing quote. -/
theorem separatorOffset_quoted (close : Char) (depth : Nat) (before : Char) (hn : '\n' ∉ cs)
    (hb : before = '\\' → cs.head? ≠ some '"') :
    separatorOffset close true depth cs = (cs.take (closingQuote before cs + 1)).length +
      separatorOffset close false depth (cs.drop (closingQuote before cs + 1)) := by
  have hstep {before x : Char} {cs : List Char} (hn : '\n' ∉ x :: cs)
      (hb : before = '\\' → x ≠ '"') (he : ∀ ds, x = '\\' → cs = '"' :: ds → False)
      (ih : separatorOffset close true depth cs = (cs.take (closingQuote x cs + 1)).length +
        separatorOffset close false depth (cs.drop (closingQuote x cs + 1))) :
      separatorOffset close true depth (x :: cs) =
        ((x :: cs).take (closingQuote before (x :: cs) + 1)).length +
          separatorOffset close false depth
            ((x :: cs).drop (closingQuote before (x :: cs) + 1)) := by
    rw [List.take_succ_cons, List.drop_succ_cons, List.length_cons, closingQuote]
    by_cases hq : x = '"'
    · subst hq
      rw [if_pos ⟨rfl, fun h => hb h rfl⟩, separatorOffset_closing, Nat.add_comm]
      rfl
    · have hx : x ≠ '\n' := fun h => hn (h ▸ List.mem_cons_self)
      rw [if_neg fun h => hq h.1, separatorOffset_inside _ _ hx hq he, ih, Nat.add_right_comm]
  -- The scan takes a backslash and the quote behind it at once.
  induction cs using List.twoStepInduction generalizing before with
  | nil => simp [separatorOffset]
  | singleton x => exact hstep hn (by simpa using hb) (by simp) (by simp [separatorOffset])
  | cons_cons x y cs ih ihy =>
    by_cases he : x = '\\' ∧ y = '"'
    · obtain ⟨rfl, rfl⟩ := he
      have hcs : '\n' ∉ cs := fun h => hn (by simp [h])
      have hclosing : closingQuote before ('\\' :: '"' :: cs) = closingQuote '"' cs + 2 := by
        simp [closingQuote]
      rw [separatorOffset, ih '"' hcs (by simp), hclosing]
      simp only [List.take_succ_cons, List.drop_succ_cons, List.length_cons]
      omega
    · have hcs : '\n' ∉ y :: cs := fun h => hn (List.mem_cons_of_mem _ h)
      refine hstep hn (by simpa using hb) ?_ (ihy y x hcs ?_)
      · intro ds hx hds
        exact he ⟨hx, (List.cons.inj hds).1⟩
      · intro hx
        simpa using fun hy => he ⟨hx, hy⟩

/-- Outside of quoted strings each character counts for itself, also a backslash. -/
theorem separatorOffset_bare (hx : x ≠ '"') (hn : x ≠ '\n') (cs : List Char) :
    separatorOffset b.closing false depth (x :: cs) =
      if depth = 0 ∧ (x = ',' ∨ x = b.closing) then 0
      else separatorOffset b.closing false (openBehind depth (some x)) cs + 1 := by
  by_cases he : ∃ ds, x = '\\' ∧ cs = '"' :: ds
  · obtain ⟨ds, rfl, rfl⟩ := he
    have hclosing : '\\' ≠ b.closing := by cases b <;> decide
    have hopen : openBehind depth (some '\\') = depth := by simp [openBehind]
    rw [if_neg (by simp [hclosing]), separatorOffset, hopen, separatorOffset_opening, Nat.add_comm]
  · rw [separatorOffset.eq_3 _ _ _ _ _ fun ds h h' => he ⟨ds, h, h'⟩, openBehind]
    cases b <;> grind [Brackets.closing]

/-- On a line, looking for a separator finds the first index at which the list goes on. -/
theorem firstBelow_separatorOffset (b : Brackets) (depth : Nat) (hn : '\n' ∉ cs) :
    FirstBelow (b.ResumesAt depth (unquoted cs)) cs.length
      (separatorOffset b.closing false depth cs) := by
  fun_induction unquoted cs generalizing depth with
  | case1 => exact ⟨Nat.le_refl 0, nofun, .inl rfl⟩
  | case2 cs ih =>
    have hcs : '\n' ∉ cs := fun h => hn (List.mem_cons_of_mem _ h)
    have hrest := ih depth fun h => hcs (List.mem_of_mem_drop h)
    have hquoted := Brackets.firstBelow_quoted hrest ('"' :: cs.take (closingQuote '"' cs + 1))
    have hlength : (cs.take (closingQuote '"' cs + 1)).length +
        (cs.drop (closingQuote '"' cs + 1)).length = cs.length := by
      rw [← List.length_append, List.take_append_drop]
    rw [List.length_cons, Nat.add_right_comm, Nat.add_right_comm _ 1, hlength] at hquoted
    rwa [separatorOffset_opening, separatorOffset_quoted _ _ '"' hcs (by simp)]
  | case3 x cs hx ih =>
    obtain ⟨hnew, hcs⟩ := not_or.mp (List.mem_cons.not.mp hn)
    rw [separatorOffset_bare hx (Ne.symm hnew)]
    split
    · next h => exact .zero (Brackets.resumesAt_zero.mpr ⟨h.1, x, rfl, h.2⟩)
    · next h =>
      have hzero : ¬ b.ResumesAt depth (some x :: unquoted cs) 0 := by
        simpa [Brackets.resumesAt_zero] using h
      exact (ih _ hcs).succ hzero fun j => Brackets.resumesAt_succ

/-! ## Moving to a separator -/

/-- Nothing is passed over at a separator and at the end of the line, and only there. -/
theorem separatorOffset_eq_zero_iff {c : Cursor} : separatorOffset b.closing false 0 c.rest = 0 ↔
    c.isAt ',' = true ∨ c.isAt b.closing = true ∨ c.lineContinues = false := by
  obtain ⟨_ | ⟨x, cs⟩, p⟩ := c
  · simp [separatorOffset, Cursor.lineContinues]
  simp only [Cursor.isAt_cons, decide_eq_true_eq, Cursor.lineContinues, decide_eq_false_iff_not,
    ne_eq, not_not]
  constructor
  · intro h
    by_contra hne
    obtain ⟨hcomma, hclosing, hnew⟩ : x ≠ ',' ∧ x ≠ b.closing ∧ x ≠ '\n' := by simpa using hne
    exact Nat.ne_of_gt (separatorOffset_pos hnew hclosing hcomma) h
  · rintro (rfl | rfl | rfl)
    · rw [separatorOffset_bare (by decide) (by decide), if_pos (by simp)]
    · have hquote : b.closing ≠ '"' := by cases b <;> decide
      have hnew : b.closing ≠ '\n' := by cases b <;> decide
      rw [separatorOffset_bare hquote hnew, if_pos (by simp)]
    · simp [separatorOffset]

/-- From a place on a line, the place where a list goes on is the first index of the line at which
no bracket is open, those in quoted strings not counted, and a comma or the closing bracket stands
outside of quoted strings; without one it is the end of the line. It lies on the line, and further
along unless there is a comma, the closing bracket or the end of the line right here. -/
theorem Cursor.toSeparator_first (c : Cursor) (b : Brackets) :
    ∃ i, c.toSeparator b.closing = c.skip i ∧
      FirstBelow (b.ResumesAt 0 (unquoted c.line)) c.line.length i ∧
      c.Ahead (c.toSeparator b.closing) ∧
      (i = 0 ↔ c.isAt ',' = true ∨ c.isAt b.closing = true ∨ c.lineContinues = false) := by
  refine ⟨separatorOffset b.closing false 0 c.rest, rfl, ?_, c.ahead_toSeparator b.closing,
    separatorOffset_eq_zero_iff⟩
  obtain ⟨tail, ht, hc⟩ := c.exists_line
  have hn := c.newline_notMem_line
  have hoffset : separatorOffset b.closing false 0 c.rest =
      separatorOffset b.closing false 0 c.line := by
    conv_lhs => rw [hc]
    exact separatorOffset_append ht hn ..
  rw [hoffset]
  exact firstBelow_separatorOffset b 0 hn

/-- Neither the comma in other brackets nor those in quotes are of the list itself. -/
example : (Cursor.mk "?\x7b,\x7d\"x,]\" , b]".toList ⟨1, 3⟩).toSeparator ']' =
    ⟨", b]".toList, ⟨1, 13⟩⟩ := by decide

end BedrockCommand

import BedrockCommand.Proofs.Reader.OnLine
import BedrockCommand.Reader.Word
/-!
The readers of words, quoted strings and identifiers keep to their line. A quoted string that the
line does not close is no exception: it runs to the end of the line and not beyond.
-/
namespace BedrockCommand.Reader

theorem onLine_untilTerminator : OnLine untilTerminator :=
  onLine_takeWhile (by decide)

theorem onLine_rawWord : OnLine rawWord :=
  .bind onLine_untilTerminator fun _ =>
    .ite (onLine_fail _) (.ite (onLine_fail _) (onLine_pure _) _) _

theorem onLine_word : OnLine word :=
  .bind onLine_rawWord fun _ => .bind onLine_argumentEnd fun _ => onLine_pure _

/-- A quoted string ends on its line or not at all; what it leaves is the end of the line. -/
theorem quoted?_append {tail : List Char} (ht : LineEnd tail) {line : List Char}
    (hl : '\n' ∉ line) :
    quoted? (line ++ tail) = (quoted? line).map fun (text, after) => (text, after ++ tail) := by
  fun_induction quoted? line with
  | case1 => rcases ht.cases with rfl | ⟨cs, rfl⟩ <;> simp [quoted?]
  | case2 rest => simp [quoted?]
  | case3 rest ih =>
    have hr : '\n' ∉ rest := fun h => hl (by simp [h])
    simp [quoted?, ih hr, Function.comp_def]
  | case4 rest => simp at hl
  | case5 x rest hq he hx ih =>
    have hr : '\n' ∉ rest := fun h => hl (by simp [h])
    rw [List.cons_append, quoted?.eq_4 _ _ hq (ht.escape_append he), if_neg hx, ih hr]
    simp [Function.comp_def]

theorem onLine_rawQuoted : OnLine rawQuoted := by
  refine (onLine_exactly (by decide)).bind fun _ => fun line hl => ?_
  cases hq : quoted? line with
  | none =>
    refine ⟨.error .unclosedString, line.length, Nat.le_refl _, fun tail p ht => ?_⟩
    simp only [quoted?_append ht hl, hq, Option.map_none, Cursor.toLineEnd,
      Cursor.line_append ht hl, Cursor.skip_append _ _ (Nat.le_refl _)]
  | some r =>
    obtain ⟨text, after⟩ := r
    refine ⟨.ok (String.ofList text), line.length - after.length, Nat.sub_le _ _,
      fun tail p ht => ?_⟩
    have hn : (line ++ tail).length - (after ++ tail).length = line.length - after.length := by
      simp only [List.length_append]
      omega
    simp only [quoted?_append ht hl, hq, Option.map_some, hn,
      Cursor.skip_append _ _ (Nat.sub_le _ _)]

theorem onLine_quoted : OnLine quoted :=
  .bind onLine_rawQuoted fun _ => .bind onLine_spaces fun _ => onLine_pure _

theorem rawQuoted_apply (c : Cursor) : rawQuoted c =
    if c.isAt '"' then
      match quoted? c.advance.rest with
      | some (text, after) => (.ok (String.ofList text),
        c.advance.skip (c.advance.rest.length - after.length))
      | none => (.error .unclosedString, c.advance.toLineEnd)
    else (.error (.expectedChar '"'), c) := by
  unfold rawQuoted
  cases hat : c.isAt '"' with
  | false =>
    have hexactly : exactly '"' c = (.error (.expectedChar '"'), c) := by simp [exactly, hat]
    simp only [bind, andThen, hexactly, Bool.false_eq_true, if_false]
  | true =>
    have hexactly : exactly '"' c = (.ok (), c.advance) := by simp [exactly, hat]
    cases hq : quoted? c.advance.rest with
    | none => simp only [bind, andThen, hexactly, hq, if_true]
    | some p => simp only [bind, andThen, hexactly, hq, if_true]

theorem quoted_apply (c : Cursor) : quoted c =
    if c.isAt '"' then
      match quoted? c.advance.rest with
      | some (text, after) => (.ok (String.ofList text),
        (c.advance.skip (c.advance.rest.length - after.length)).skipSpaces)
      | none => (.error .unclosedString, c.advance.toLineEnd)
    else (.error (.expectedChar '"'), c) := by
  unfold quoted
  rw [bind_apply, rawQuoted_apply]
  cases c.isAt '"' with
  | false => rfl
  | true => cases quoted? c.advance.rest <;> rfl

theorem onLine_text : OnLine text :=
  (onLine_look (Cursor.seesLine_isAt (by decide))).bind fun _ => .ite onLine_quoted onLine_word _

theorem onLine_identifier : OnLine identifier :=
  .bind onLine_untilTerminator fun _ =>
    .ite (onLine_fail _) (.ite (onLine_fail _) (.ite (onLine_fail _) (.ite (onLine_fail _)
      (.bind onLine_spaces fun _ => onLine_pure _) _) _) _) _

theorem onLine_boolean : OnLine boolean :=
  .bind onLine_rawWord fun _ =>
    .ite (.bind onLine_argumentEnd fun _ => onLine_pure _)
      (.ite (.bind onLine_argumentEnd fun _ => onLine_pure _) (onLine_fail _) _) _

theorem onLine_line : OnLine line := by
  intro line hl
  refine ⟨.ok (String.ofList (Text.trimEnd line)), line.length, Nat.le_refl _,
    fun tail p ht => ?_⟩
  simp only [Reader.line, Cursor.lineText, Cursor.toLineEnd, Cursor.line_append ht hl,
    Cursor.skip_append _ _ (Nat.le_refl _)]

end BedrockCommand.Reader

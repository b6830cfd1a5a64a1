import BedrockCommand.Proofs.Reader.OnLine
import BedrockCommand.Reader.Number
/-!
The readers of integers, numbers, ranges, coordinates and rotations keep to their line.
-/
namespace BedrockCommand.Reader

theorem seesLine_startsNumber : Cursor.SeesLine startsNumber :=
  Cursor.seesLine_head?_any (by decide)

theorem onLine_sign : OnLine sign := by
  intro line _
  cases line with
  | nil =>
    refine ⟨.ok false, 0, Nat.zero_le _, fun tail p ht => ?_⟩
    rcases ht.cases with rfl | ⟨cs, rfl⟩ <;> simp [sign]
  | cons x line =>
    by_cases hm : x = '-'
    · exact ⟨.ok true, 1, by simp, fun tail p _ => by
        simp [sign, hm, Cursor.advance, Cursor.skip]⟩
    by_cases hp : x = '+'
    · exact ⟨.ok false, 1, by simp, fun tail p _ => by
        simp [sign, hp, Cursor.advance, Cursor.skip]⟩
    · exact ⟨.ok false, 0, Nat.zero_le _, fun tail p _ => by simp [sign, hm, hp]⟩

theorem onLine_digits (e : SyntaxError) : OnLine (digits e) :=
  (onLine_takeWhile (by decide)).bind fun _ => .ite (onLine_fail _) (onLine_pure _) _

theorem onLine_rawInteger : OnLine rawInteger :=
  .bind onLine_sign fun _ => (onLine_digits _).bind fun _ => .ite (onLine_pure _) (onLine_fail _) _

theorem onLine_integer : OnLine integer :=
  .bind onLine_rawInteger fun _ => .bind onLine_argumentEnd fun _ => onLine_pure _

/-- The digits of a number, and the places behind its point if there is one. -/
theorem onLine_places (negative : Bool) (whole : List Char) :
    OnLine (look (·.isAt '.') >>= fun b => if b = true then
        move Cursor.advance >>= fun _ => digits .incompleteFraction >>= fun places =>
          (pure (.ofDecimal negative (Numeral.value (whole ++ places)) (-places.length)) :
            Reader Binary64)
      else pure (.ofDecimal negative (Numeral.value whole) 0)) :=
  onLine_lookIf (Cursor.seesLine_isAt (by decide))
    (fun _ hl h => onLineAt_advance_bind h hl fun _ =>
      (onLine_digits _).bind fun _ => onLine_pure _)
    (onLine_pure _)

theorem onLine_unsigned (negative : Bool) : OnLine (unsigned negative) :=
  (onLine_digits _).bind (onLine_places negative)

theorem onLine_rawNumber : OnLine rawNumber :=
  .bind onLine_sign onLine_unsigned

theorem onLine_number : OnLine number :=
  .bind onLine_rawNumber fun _ => .bind onLine_argumentEnd fun _ => onLine_pure _

theorem onLine_bound? : OnLine bound? :=
  (onLine_look seesLine_startsNumber).bind fun _ =>
    .ite (.bind onLine_rawInteger fun _ => onLine_pure _) (onLine_pure _) _

theorem onLine_upperBound? : OnLine upperBound? := by
  refine fun line hl => (onLine_spacesBefore (by decide) line hl).bind fun b n hr => ?_
  have hd := notMem_drop hl n
  cases b with
  | false => exact onLine_pure none _ hd
  | true =>
    refine (onLineAt_advance hr.ne_nil_of_spacesBefore).bind fun _ m _ => ?_
    refine (OnLine.bind (onLine_exactly (by decide)) fun _ => ?_) _ (notMem_drop hd m)
    exact (onLine_spacesBefore (by decide)).bind fun _ =>
      .ite (.bind onLine_rawInteger fun _ => onLine_pure _) (onLine_pure _) _

theorem onLine_range : OnLine range := by
  refine .bind onLine_negation fun _ => .bind onLine_bound? fun low => .bind onLine_upperBound?
    fun high => ?_
  cases low <;> cases high
  case none.none => exact onLine_fail _
  case some.some => exact .ite (onLine_fail _) onLine_argumentEnd _
  all_goals exact onLine_argumentEnd

theorem onLine_offset : OnLine offset :=
  (onLine_look seesLine_startsNumber).bind fun _ =>
    .ite (.bind onLine_rawNumber fun _ => onLine_pure _) (onLine_pure _) _

theorem onLine_coordinate : OnLine coordinate := by
  have hmark (a : Anchor) (u : Unit) :
      OnLine (offset >>= fun _ => argumentEnd >>= fun _ => (pure a : Reader Anchor)) :=
    .bind onLine_offset fun _ => .bind onLine_argumentEnd fun _ => onLine_pure _
  refine onLine_lookIf (Cursor.seesLine_isAt (by decide))
    (fun line hl h => onLineAt_advance_bind h hl (hmark .place)) ?_
  refine onLine_lookIf (Cursor.seesLine_isAt (by decide))
    (fun line hl h => onLineAt_advance_bind h hl (hmark .view)) ?_
  exact (onLine_look seesLine_startsNumber).bind fun _ =>
    .ite (.bind onLine_rawNumber fun _ => .bind onLine_argumentEnd fun _ => onLine_pure _)
      (onLine_fail _) _

theorem onLine_angle : OnLine angle := by
  have hnumber : OnLine (number >>= fun _ => (pure () : Reader Unit)) :=
    .bind onLine_number fun _ => onLine_pure _
  exact onLine_lookIf (Cursor.seesLine_isAt (by decide))
    (fun line hl h => onLineAt_advance_bind h hl fun _ =>
      (onLine_look seesLine_startsNumber).bind fun _ => .ite hnumber (onLine_pure _) _)
    hnumber

/-- The letter behind an amount of levels, and the end of the amount. -/
theorem onLine_levels (n : Int) : OnLine (do
    if ← look fun c => c.isAt 'L' || c.isAt 'l' then
      move Cursor.advance
    argumentEnd
    return n) := by
  have hend (u : Unit) : OnLine (argumentEnd >>= fun _ => (pure n : Reader Int)) :=
    .bind onLine_argumentEnd fun _ => onLine_pure _
  have hq : Cursor.SeesLine fun c => c.isAt 'L' || c.isAt 'l' :=
    (Cursor.seesLine_isAt (by decide)).map₂ (Cursor.seesLine_isAt (by decide)) _
  refine onLine_lookIf hq (fun line hl h => ?_) (hend ())
  rcases Bool.or_eq_true_iff.mp h with h | h
  all_goals exact onLineAt_advance_bind h hl hend

theorem onLine_experience : OnLine experience :=
  .bind onLine_rawInteger onLine_levels

theorem onLine_jsonNumber : OnLine jsonNumber := by
  refine OnLine.bind (fun line _ => ?_) fun negative =>
    (onLine_unsigned negative).bind fun _ => .bind onLine_spaces fun _ => onLine_pure _
  -- The sign is the same as elsewhere, but a plus is none.
  cases line with
  | nil =>
    refine ⟨.ok false, 0, Nat.zero_le _, fun tail p ht => ?_⟩
    rcases ht.cases with rfl | ⟨cs, rfl⟩ <;> simp
  | cons x line =>
    by_cases hm : x = '-'
    · exact ⟨.ok true, 1, by simp, fun tail p _ => by simp [hm, Cursor.advance, Cursor.skip]⟩
    · exact ⟨.ok false, 0, Nat.zero_le _, fun tail p _ => by simp [hm]⟩

end BedrockCommand.Reader

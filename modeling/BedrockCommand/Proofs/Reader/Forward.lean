import BedrockCommand.Proofs.Reader.Number
import BedrockCommand.Proofs.Reader.Word
/-!
Readers that move on. Whatever such a reader gives is made of a character at least; only what may be
left out is read without moving.
-/
namespace BedrockCommand.Reader

/-- A reader that takes a character at least if it gives a value. -/
def MovesOn (r : Reader α) : Prop :=
  ∀ c x d, r c = (.ok x, d) → d.rest.length < c.rest.length

/-- What a reader of a line leaves is no longer than the line. -/
theorem OnLine.length_le {r : Reader α} (hr : r.OnLine) {c d : Cursor} {v : Except SyntaxError α}
    (h : r c = (v, d)) : d.rest.length ≤ c.rest.length := by
  have hle := (hr.ahead c).length_le
  rwa [h] at hle

namespace MovesOn

variable {r s : Reader α}

/-- A reader that has moved on may go on as it likes along the line. -/
theorem bind (hr : r.MovesOn) {next : α → Reader β} (hn : ∀ x, (next x).OnLine) :
    (r >>= next).MovesOn := by
  intro c y e h
  obtain ⟨x, d, hd, he⟩ := bind_eq_ok.mp h
  exact Nat.lt_of_le_of_lt ((hn x).length_le he) (hr c x d hd)

/-- A reader that moves on may come last. -/
theorem after {t : Reader γ} (ht : t.OnLine) {next : γ → Reader α} (hn : ∀ x, (next x).MovesOn) :
    (t >>= next).MovesOn := by
  intro c y e h
  obtain ⟨x, d, hd, he⟩ := bind_eq_ok.mp h
  exact Nat.lt_of_lt_of_le (hn x d y e he) (ht.length_le hd)

theorem bind_pure (hr : r.MovesOn) (f : α → β) :
    (r >>= fun x => (pure (f x) : Reader β)).MovesOn :=
  hr.bind fun _ => onLine_pure _

theorem ite (hr : r.MovesOn) (hs : s.MovesOn) (P : Prop) [Decidable P] :
    (if P then r else s).MovesOn := by
  split
  · exact hr
  · exact hs

end MovesOn

theorem movesOn_fail (e : SyntaxError) : (fail e : Reader α).MovesOn := by
  intro c x d h
  simp at h

/-- A run that must not be empty. -/
theorem movesOn_run (p : Char → Bool) (e : SyntaxError) {next : List Char → Reader α}
    (hn : ∀ cs, (next cs).OnLine) :
    (takeWhile p >>= fun cs => if cs.isEmpty then fail e else next cs).MovesOn := by
  intro c y d h
  obtain ⟨cs, c', hcs, hd⟩ := bind_eq_ok.mp h
  obtain ⟨rfl, rfl⟩ := ok_inj hcs
  split at hd
  · simp at hd
  · next hne =>
    have hpos : 0 < (c.ahead p).length := List.length_pos_iff.mpr (by simpa using hne)
    have hle : (c.ahead p).length ≤ c.rest.length := (List.takeWhile_prefix p).length_le
    have hd := (hn _).length_le hd
    simp only [Cursor.skipWhile, Cursor.skip, List.length_drop] at hd
    omega

theorem length_advance {c : Cursor} {x : Char} (h : c.isAt x = true) :
    c.advance.rest.length < c.rest.length := by
  obtain ⟨cs, hr⟩ := Cursor.isAt_iff.mp h
  simp [Cursor.advance_of_rest hr, hr]

theorem length_advance_le (c : Cursor) : c.advance.rest.length ≤ c.rest.length := by
  simp [Cursor.advance, Cursor.skip]

theorem movesOn_exactly (x : Char) : (exactly x).MovesOn := by
  intro c u d h
  unfold exactly at h
  split at h
  · next hat =>
    obtain ⟨-, rfl⟩ := ok_inj h
    exact length_advance hat
  · simp at h

theorem movesOn_symbol (x : Char) : (symbol x).MovesOn :=
  (movesOn_exactly x).bind fun _ => onLine_spaces

/-- A mark, which is passed over, or else something that moves on by itself. -/
theorem movesOn_mark {x : Char} {next : Unit → Reader α} {r : Reader α}
    (hn : ∀ u, (next u).OnLine) (hr : r.MovesOn) :
    (look (·.isAt x) >>= fun b =>
      if b = true then move Cursor.advance >>= next else r).MovesOn := by
  intro c y d h
  obtain ⟨b, c', hb, hd⟩ := bind_eq_ok.mp h
  obtain ⟨rfl, rfl⟩ := ok_inj hb
  split at hd
  · next hat =>
    obtain ⟨u, c', hc, hd⟩ := bind_eq_ok.mp hd
    obtain ⟨-, rfl⟩ := ok_inj hc
    exact Nat.lt_of_le_of_lt ((hn u).length_le hd) (length_advance hat)
  · exact hr c y d hd

/-! ## Numbers -/

theorem movesOn_digits (e : SyntaxError) : (digits e).MovesOn :=
  movesOn_run _ e onLine_pure

theorem movesOn_rawInteger : rawInteger.MovesOn :=
  .after onLine_sign fun _ =>
    (movesOn_digits _).bind fun _ => .ite (onLine_pure _) (onLine_fail _) _

theorem movesOn_integer : integer.MovesOn :=
  .bind movesOn_rawInteger fun _ => .bind onLine_argumentEnd fun _ => onLine_pure _

theorem movesOn_unsigned (negative : Bool) : (unsigned negative).MovesOn :=
  (movesOn_digits _).bind (onLine_places negative)

theorem movesOn_rawNumber : rawNumber.MovesOn :=
  .after onLine_sign movesOn_unsigned

theorem movesOn_number : number.MovesOn :=
  .bind movesOn_rawNumber fun _ => .bind onLine_argumentEnd fun _ => onLine_pure _

theorem length_lt_of_bound? {c d : Cursor} {n : Int} (h : bound? c = (.ok (some n), d)) :
    d.rest.length < c.rest.length := by
  obtain ⟨b, c', hb, h⟩ := bind_eq_ok.mp h
  obtain ⟨-, rfl⟩ := ok_inj hb
  split at h
  · exact MovesOn.bind_pure movesOn_rawInteger some c (some n) d h
  · simpa using (ok_inj h).1

theorem length_lt_of_upperBound? {c d : Cursor} {n : Int}
    (h : upperBound? c = (.ok (some n), d)) : d.rest.length < c.rest.length := by
  obtain ⟨b, c', hb, h⟩ := bind_eq_ok.mp h
  have hc' := (onLine_spacesBefore (by decide)).length_le hb
  split at h
  · -- The second point is passed over, whatever follows it.
    obtain ⟨u, c'', hu, h⟩ := bind_eq_ok.mp h
    obtain ⟨-, rfl⟩ := ok_inj hu
    have hadvance := length_advance_le c'
    have hpoint : (exactly '.' >>= fun _ => spacesBefore isNumberStart >>= fun b =>
        if b = true then rawInteger >>= fun n => (pure (some n) : Reader (Option Int))
        else pure none).MovesOn :=
      (movesOn_exactly '.').bind fun _ => (onLine_spacesBefore (by decide)).bind fun _ =>
        .ite (.bind onLine_rawInteger fun _ => onLine_pure _) (onLine_pure _) _
    have hd := hpoint c'.advance (some n) d h
    omega
  · simpa using (ok_inj h).1

/-- A range has one bound at least. -/
theorem movesOn_range : range.MovesOn := by
  intro c u d h
  obtain ⟨_, c₁, h₁, h⟩ := bind_eq_ok.mp h
  obtain ⟨low, c₂, hlow, h⟩ := bind_eq_ok.mp h
  obtain ⟨high, c₃, hhigh, h⟩ := bind_eq_ok.mp h
  have hle₁ := OnLine.length_le onLine_negation h₁
  have hle₂ := OnLine.length_le onLine_bound? hlow
  have hle₃ := OnLine.length_le onLine_upperBound? hhigh
  have hend (h : argumentEnd c₃ = (.ok u, d)) : d.rest.length ≤ c₃.rest.length :=
    OnLine.length_le onLine_argumentEnd h
  cases low with
  | none =>
    cases high with
    | none => simp at h
    | some n =>
      have := length_lt_of_upperBound? hhigh
      have := hend h
      omega
  | some l =>
    have := length_lt_of_bound? hlow
    cases high with
    | none =>
      have := hend h
      omega
    | some n =>
      simp only at h
      split at h
      · simp at h
      · have := hend h
        omega

theorem movesOn_coordinate : coordinate.MovesOn := by
  have hmark (a : Anchor) (u : Unit) :
      OnLine (offset >>= fun _ => argumentEnd >>= fun _ => (pure a : Reader Anchor)) :=
    .bind onLine_offset fun _ => .bind onLine_argumentEnd fun _ => onLine_pure _
  refine movesOn_mark (hmark .place) (movesOn_mark (hmark .view) ?_)
  refine .after (onLine_look seesLine_startsNumber) fun _ => .ite ?_ (movesOn_fail _) _
  exact .bind movesOn_rawNumber fun _ => .bind onLine_argumentEnd fun _ => onLine_pure _

theorem movesOn_angle : angle.MovesOn := by
  have hnumber : OnLine (number >>= fun _ => (pure () : Reader Unit)) :=
    .bind onLine_number fun _ => onLine_pure _
  exact movesOn_mark
    (fun _ => (onLine_look seesLine_startsNumber).bind fun _ => .ite hnumber (onLine_pure _) _)
    (.bind_pure movesOn_number _)

theorem movesOn_experience : experience.MovesOn :=
  .bind movesOn_rawInteger onLine_levels

theorem movesOn_jsonNumber : jsonNumber.MovesOn := by
  intro c x e h
  obtain ⟨negative, d, hs, h⟩ := bind_eq_ok.mp h
  have hnumber : (unsigned negative >>= fun x => spaces >>= fun _ =>
      (pure x : Reader Binary64)).MovesOn :=
    (movesOn_unsigned negative).bind fun _ => .bind onLine_spaces fun _ => onLine_pure _
  -- The sign may be left out.
  have hle : d.rest.length ≤ c.rest.length := by
    split at hs
    · obtain ⟨-, rfl⟩ := ok_inj hs
      exact length_advance_le c
    · exact (ok_inj hs).2 ▸ Nat.le_refl _
  exact Nat.lt_of_lt_of_le (hnumber d x e h) hle

/-! ## Words -/

theorem movesOn_rawWord : rawWord.MovesOn :=
  movesOn_run _ _ fun _ => .ite (onLine_fail _) (onLine_pure _) _

theorem movesOn_word : word.MovesOn :=
  .bind movesOn_rawWord fun _ => .bind onLine_argumentEnd fun _ => onLine_pure _

theorem movesOn_quoted : quoted.MovesOn := by
  intro c w d h
  rw [quoted_apply] at h
  split at h
  · next hat =>
    split at h
    · next text after _ =>
      obtain ⟨-, rfl⟩ := ok_inj h
      have hspaces := (Cursor.ahead_skipSpaces
        (c.advance.skip (c.advance.rest.length - after.length))).length_le
      have hskip : (c.advance.skip (c.advance.rest.length - after.length)).rest.length ≤
          c.advance.rest.length := by simp [Cursor.skip]
      have hadvance := length_advance hat
      omega
    · simp at h
  · simp at h

theorem movesOn_text : text.MovesOn :=
  .after (onLine_look (Cursor.seesLine_isAt (by decide))) fun _ =>
    .ite movesOn_quoted movesOn_word _

theorem movesOn_identifier : identifier.MovesOn :=
  movesOn_run _ _ fun _ =>
    .ite (onLine_fail _) (.ite (onLine_fail _) (.ite (onLine_fail _)
      (.bind onLine_spaces fun _ => onLine_pure _) _) _) _

theorem movesOn_boolean : boolean.MovesOn :=
  .bind movesOn_rawWord fun _ =>
    .ite (.bind onLine_argumentEnd fun _ => onLine_pure _)
      (.ite (.bind onLine_argumentEnd fun _ => onLine_pure _) (onLine_fail _) _) _

end BedrockCommand.Reader

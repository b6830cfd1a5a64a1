import BedrockCommand.Proofs.Reader.Number
import BedrockCommand.Proofs.Selector.Inside
/-!
Readers inside an option: what they give and where they end does not depend on what follows the
option.
-/
namespace BedrockCommand

variable {w : Places} {opened : List Brackets} {x : Char} {u : List Char}

namespace Reader

/-- From two cursors, a reader gives the same and ends inside the same option. -/
def InsideAt (w : Places) (opened : List Brackets) (r : Reader α) (c d : Cursor) :
    Prop :=
  (r d).1 = (r c).1 ∧ Cursor.Inside w opened (r c).2 (r d).2

/-- A reader that, from inside an option, does not see beyond it. -/
def StaysInside (r : Reader α) : Prop :=
  ∀ w opened c d, Cursor.Inside w opened c d → InsideAt w opened r c d

variable {c d : Cursor}

theorem InsideAt.bind {r : Reader α} {k : α → Reader β} (hr : InsideAt w opened r c d)
    (hk : ∀ x c' d', r c = (.ok x, c') → Cursor.Inside w opened c' d' →
      InsideAt w opened (k x) c' d') : InsideAt w opened (r >>= k) c d := by
  obtain ⟨hv, hi⟩ := hr
  unfold InsideAt
  rw [bind_apply, bind_apply]
  rcases hrc : r c with ⟨v, c'⟩
  rcases hrd : r d with ⟨v', d'⟩
  simp only [hrc, hrd] at hv hi
  obtain rfl := hv
  cases v' with
  | error e => exact ⟨rfl, hi⟩
  | ok x => exact hk x c' d' hrc hi

theorem StaysInside.bind {r : Reader α} {k : α → Reader β} (hr : StaysInside r)
    (hk : ∀ x, StaysInside (k x)) : StaysInside (r >>= k) :=
  fun w opened c d h => (hr w opened c d h).bind fun x c' d' _ h' =>
    hk x w opened c' d' h'

theorem staysInside_pure (x : α) : StaysInside (pure x : Reader α) :=
  fun _ _ _ _ h => ⟨rfl, h⟩

theorem staysInside_fail (e : SyntaxError) : StaysInside (fail e : Reader α) :=
  fun _ _ _ _ h => ⟨rfl, h⟩

theorem StaysInside.ite {r s : Reader α} (hr : StaysInside r) (hs : StaysInside s) (P : Prop)
    [Decidable P] : StaysInside (if P then r else s) := by
  split
  · exact hr
  · exact hs

theorem staysInside_look {f : Cursor → α} (hf : Cursor.SeesInside f) : StaysInside (look f) :=
  fun _ _ _ _ h => ⟨congrArg Except.ok (h.sees hf), h⟩

/-- A reader that looks before it goes on: in each case it knows what it saw. -/
theorem staysInside_lookIf {q : Cursor → Bool} (hq : Cursor.SeesInside q) {r s : Reader α}
    (hr : ∀ w opened c d, Cursor.Inside w opened c d → q c = true →
      InsideAt w opened r c d) (hs : StaysInside s) :
    StaysInside (look q >>= fun b => if b = true then r else s) := by
  intro w opened c d h
  refine (staysInside_look hq w opened c d h).bind fun b c' d' hb h' => ?_
  obtain ⟨rfl, rfl⟩ := ok_inj hb
  split
  · next hyes => exact hr w opened _ d' h' hyes
  · exact hs w opened _ d' h'

/-- A reader that passes the character it stands on and goes on after it. -/
theorem insideAt_advance_bind {k : Unit → Reader α} (hk : ∀ u, StaysInside (k u))
    (h : Cursor.Inside w opened c d) (hx : x ∉ listMarks)
    (hat : c.isAt x = true) : InsideAt w opened (move Cursor.advance >>= k) c d := by
  have hadvance : InsideAt w opened (move Cursor.advance) c d := ⟨rfl, h.advance_neutral hx hat⟩
  exact hadvance.bind fun u c' d' _ h' => hk u w opened c' d' h'

theorem staysInside_takeWhile {q : Char → Bool} (hq : listMarks.any q = false) :
    StaysInside (takeWhile q) :=
  fun _ _ _ _ h => ⟨congrArg Except.ok (h.sees (Cursor.seesInside_ahead hq)), h.skipWhile hq⟩

theorem staysInside_spaces : StaysInside spaces :=
  fun _ _ _ _ h => ⟨rfl, h.skipSpaces⟩

theorem staysInside_exactly (hx : x ∉ listMarks) : StaysInside (exactly x) := by
  intro w opened c d h
  have hat := h.isAt_of_notMem hx
  unfold InsideAt exactly
  rw [hat]
  split
  · next hc => exact ⟨rfl, h.advance_neutral hx hc⟩
  · exact ⟨rfl, h⟩

theorem staysInside_symbol (hx : x ∉ listMarks) : StaysInside (symbol x) :=
  (staysInside_exactly hx).bind fun _ => staysInside_spaces

theorem staysInside_argumentEnd : StaysInside argumentEnd :=
  (staysInside_look Cursor.seesInside_terminated).bind fun _ =>
    .ite staysInside_spaces (staysInside_fail _) _

theorem staysInside_negation : StaysInside negation :=
  (staysInside_look (Cursor.seesInside_isAt (by decide) (by decide))).bind fun _ =>
    .ite (staysInside_symbol (by decide)) (staysInside_pure _) _

/-! ## Words and quoted strings -/

theorem staysInside_rawWord : StaysInside rawWord :=
  (staysInside_takeWhile rfl).bind fun _ =>
    .ite (staysInside_fail _) (.ite (staysInside_fail _) (staysInside_pure _) _) _

theorem staysInside_word : StaysInside word :=
  staysInside_rawWord.bind fun _ => staysInside_argumentEnd.bind fun _ => staysInside_pure _

theorem staysInside_identifier : StaysInside identifier :=
  (staysInside_takeWhile rfl).bind fun _ =>
    .ite (staysInside_fail _) (.ite (staysInside_fail _) (.ite (staysInside_fail _)
      (.ite (staysInside_fail _) (staysInside_spaces.bind fun _ => staysInside_pure _) _) _) _) _

/-- A quoted string inside an option, whatever follows the option. -/
theorem quoted_inside (h : closes opened false ('"' :: u) = true) (hn : '\n' ∉ u) :
    ∃ text body after, u = body ++ after ∧ closes opened false after = true ∧
      ∀ tail p, quoted ⟨'"' :: (u ++ tail), p⟩ =
        (.ok (String.ofList text),
          (Cursor.mk (after ++ tail) (p.after ('"' :: body))).skipSpaces) := by
  rw [closes_quote] at h
  obtain ⟨text, after, ⟨body, rfl⟩, hc, hq⟩ := quoted?_of_closes h hn
  refine ⟨text, body, after, rfl, hc, fun tail p => ?_⟩
  have hlen : body.length = (body ++ after ++ tail).length - (after ++ tail).length := by
    simp only [List.length_append]
    omega
  have hskip := Cursor.skip_append_of_length body (after ++ tail) (p.next '"') hlen
  rw [← List.append_assoc] at hskip
  rw [quoted_apply, if_pos (Cursor.isAt_iff.mpr ⟨_, rfl⟩), Cursor.advance_of_rest rfl, hq]
  simp only [hskip]
  rfl

theorem staysInside_quoted : StaysInside quoted := by
  intro w opened c d h
  have hat : d.isAt '"' = c.isAt '"' := h.sees (Cursor.seesInside_isAt (by decide) (by decide))
  cases hc : c.isAt '"' with
  | false =>
    unfold InsideAt
    rw [quoted_apply, quoted_apply, hat, hc]
    exact ⟨rfl, h⟩
  | true =>
    obtain ⟨u, p, hn, hclosed, rfl, rfl⟩ := h.cases
    cases u with
    | nil =>
      obtain ⟨x, cs, hfirst, rfl | rfl⟩ := w.separates_first <;> simp [hfirst] at hc
    | cons x u =>
      obtain rfl : x = '"' := by simpa using hc
      have hu : '\n' ∉ u := fun hmem => hn (List.mem_cons_of_mem _ hmem)
      obtain ⟨text, body, after, rfl, hafter, hq⟩ := quoted_inside hclosed hu
      rw [List.cons_append, List.cons_append, InsideAt, hq w.first p, hq w.second (w.move p)]
      exact ⟨rfl, (Cursor.inside_after (fun hmem => hn (by simp_all))
        (fun hmem => hu (List.mem_append_right _ hmem)) hafter p).skipSpaces⟩

theorem staysInside_text : StaysInside text :=
  (staysInside_look (Cursor.seesInside_isAt (by decide) (by decide))).bind fun _ =>
    .ite staysInside_quoted staysInside_word _

/-! ## Numbers -/

theorem seesInside_startsNumber : Cursor.SeesInside startsNumber :=
  Cursor.seesInside_head?_any rfl

theorem sign_apply (c : Cursor) : sign c =
    if c.isAt '-' then (.ok true, c.advance) else if c.isAt '+' then (.ok false, c.advance)
    else (.ok false, c) := by
  obtain ⟨_ | ⟨x, cs⟩, p⟩ := c
  · rfl
  · by_cases hm : x = '-'
    · subst hm
      rfl
    · by_cases hp : x = '+'
      · subst hp
        rfl
      · simp [sign, hm, hp]

theorem staysInside_sign : StaysInside sign := by
  intro w opened c d h
  have hminus : d.isAt '-' = c.isAt '-' := h.sees (Cursor.seesInside_isAt (by decide) (by decide))
  have hplus : d.isAt '+' = c.isAt '+' := h.sees (Cursor.seesInside_isAt (by decide) (by decide))
  rw [InsideAt, sign_apply, sign_apply, hminus, hplus]
  split
  · next hc => exact ⟨rfl, h.advance_neutral (by decide) hc⟩
  · split
    · next hc => exact ⟨rfl, h.advance_neutral (by decide) hc⟩
    · exact ⟨rfl, h⟩

theorem staysInside_digits (e : SyntaxError) : StaysInside (digits e) :=
  (staysInside_takeWhile rfl).bind fun _ => .ite (staysInside_fail _) (staysInside_pure _) _

theorem staysInside_rawInteger : StaysInside rawInteger :=
  staysInside_sign.bind fun _ => (staysInside_digits _).bind fun _ =>
    .ite (staysInside_pure _) (staysInside_fail _) _

theorem staysInside_integer : StaysInside integer :=
  staysInside_rawInteger.bind fun _ => staysInside_argumentEnd.bind fun _ => staysInside_pure _

theorem staysInside_unsigned (negative : Bool) : StaysInside (unsigned negative) :=
  (staysInside_digits _).bind fun _ =>
    staysInside_lookIf (Cursor.seesInside_isAt (by decide) (by decide))
      (fun _ _ _ _ h hat => insideAt_advance_bind (fun _ =>
        (staysInside_digits _).bind fun _ => staysInside_pure _) h (by decide) hat)
      (staysInside_pure _)

theorem staysInside_rawNumber : StaysInside rawNumber :=
  staysInside_sign.bind staysInside_unsigned

theorem staysInside_number : StaysInside number :=
  staysInside_rawNumber.bind fun _ => staysInside_argumentEnd.bind fun _ => staysInside_pure _

theorem staysInside_bound? : StaysInside bound? :=
  (staysInside_look seesInside_startsNumber).bind fun _ =>
    .ite (staysInside_rawInteger.bind fun _ => staysInside_pure _) (staysInside_pure _) _

theorem spacesBefore_apply (q : Char → Bool) (c : Cursor) : spacesBefore q c =
    if c.skipSpaces.rest.head?.any q then (.ok true, c.skipSpaces) else (.ok false, c) := by
  unfold spacesBefore
  cases c.skipSpaces.rest <;> rfl

theorem staysInside_spacesBefore {q : Char → Bool} (hq : listMarks.any q = false) :
    StaysInside (spacesBefore q) := by
  intro w opened c d h
  have hspaces := h.skipSpaces
  have hany : d.skipSpaces.rest.head?.any q = c.skipSpaces.rest.head?.any q :=
    hspaces.sees (Cursor.seesInside_head?_any hq)
  rw [InsideAt, spacesBefore_apply, spacesBefore_apply, hany]
  split
  · exact ⟨rfl, hspaces⟩
  · exact ⟨rfl, h⟩

theorem staysInside_upperBound? : StaysInside upperBound? := by
  refine fun w opened c d h =>
    (staysInside_spacesBefore rfl w opened c d h).bind fun b c' d' hb h' => ?_
  cases b with
  | false => exact staysInside_pure none w opened c' d' h'
  | true =>
    have hat : c'.isAt '.' = true := by
      rw [spacesBefore_apply] at hb
      split at hb
      · next hany =>
        rw [← (Prod.mk.inj hb).2, Cursor.isAt_eq_head?]
        simpa [Option.any_eq_true] using hany
      · simp at hb
    refine insideAt_advance_bind (fun _ => ?_) h' (by decide) hat
    exact (staysInside_exactly (by decide)).bind fun _ =>
      (staysInside_spacesBefore rfl).bind fun _ =>
        .ite (staysInside_rawInteger.bind fun _ => staysInside_pure _) (staysInside_pure _) _

theorem staysInside_range : StaysInside range := by
  refine staysInside_negation.bind fun _ => staysInside_bound?.bind fun low =>
    staysInside_upperBound?.bind fun high => ?_
  cases low <;> cases high
  case none.none => exact staysInside_fail _
  case some.some => exact .ite (staysInside_fail _) staysInside_argumentEnd _
  all_goals exact staysInside_argumentEnd

theorem staysInside_offset : StaysInside offset :=
  (staysInside_look seesInside_startsNumber).bind fun _ =>
    .ite (staysInside_rawNumber.bind fun _ => staysInside_pure _) (staysInside_pure _) _

theorem staysInside_coordinate : StaysInside coordinate := by
  have hmark (a : Anchor) (u : Unit) :
      StaysInside (offset >>= fun _ => argumentEnd >>= fun _ => (pure a : Reader Anchor)) :=
    staysInside_offset.bind fun _ => staysInside_argumentEnd.bind fun _ => staysInside_pure _
  refine staysInside_lookIf (Cursor.seesInside_isAt (by decide) (by decide))
    (fun _ _ _ _ h hat => insideAt_advance_bind (hmark .place) h (by decide) hat) ?_
  refine staysInside_lookIf (Cursor.seesInside_isAt (by decide) (by decide))
    (fun _ _ _ _ h hat => insideAt_advance_bind (hmark .view) h (by decide) hat) ?_
  exact (staysInside_look seesInside_startsNumber).bind fun _ =>
    .ite (staysInside_rawNumber.bind fun _ => staysInside_argumentEnd.bind fun _ =>
      staysInside_pure _) (staysInside_fail _) _

end Reader
end BedrockCommand

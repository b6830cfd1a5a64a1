import BedrockCommand.Proofs.Json.Scalar
import BedrockCommand.Proofs.Reader.Form
import BedrockCommand.Proofs.Selector.Reader
/-!
The readers of words, identifiers, integers, numbers, ranges and coordinates read their forms and
nothing else.
-/
namespace BedrockCommand

theorem Cursor.Past.advance {c : Cursor} {x : Char} (h : c.isAt x = true) :
    c.Past [x] c.advance := by
  obtain ⟨rest, hr⟩ := isAt_iff.mp h
  rw [advance_of_rest hr]
  exact ⟨hr, rfl⟩

theorem Cursor.rest_skipSpaces (c : Cursor) : c.skipSpaces.rest = afterSpaces c.rest := by
  rw [skipSpaces, skipWhile_eq]
  rfl

theorem Cursor.terminated_eq (c : Cursor) : c.terminated = endsWord c.rest := by
  obtain ⟨_ | ⟨x, cs⟩, p⟩ := c <;> rfl

/-- No character that ends words stands in a number or an identifier. -/
theorem plain_of_isTerminating {x : Char} (h : isTerminating x = true) :
    x.isAlphanum = false ∧ x ≠ '.' ∧ Reader.isIdentifierChar x = false := by
  have hall : terminators.all fun y =>
      !y.isAlphanum && y != '.' && !Reader.isIdentifierChar y := by decide
  simpa [and_assoc] using List.all_eq_true.mp hall x (List.contains_iff_mem.mp h)

theorem Form.spaced.imp {F : Form α} {G : Form β} {cs cs' ds : List Char} {x : α} {y : β}
    (h : spaced F cs x ds) (hFG : ∀ {es}, F cs x es → G cs' y es) : spaced G cs' y ds := by
  obtain ⟨h⟩ := h
  exact .intro (hFG h)

/-- A word begins with a character that ends none. -/
theorem Form.word.head {cs ds : List Char} {w : String} (h : word cs w ds) :
    ∃ x es, cs = x :: es ∧ isTerminating x = false := by
  obtain ⟨⟨hne, hw, -⟩, -⟩ := h
  obtain ⟨x, es, rfl⟩ := List.exists_cons_of_ne_nil hne
  exact ⟨x, _, rfl, hw x (List.mem_cons_self ..)⟩

namespace Reader

variable {c d : Cursor} {cs ds rest w : List Char} {p : Position}

theorem isTerminating_of_endsWord (h : endsWord rest = true) :
    ∀ x ∈ rest.head?, isTerminating x = true := by
  cases rest with
  | nil => simp
  | cons x rest => simpa [endsWord] using h

theorem delimited_of_endsWord (h : endsWord rest = true) : Delimited rest := fun x hx =>
  have hplain := plain_of_isTerminating (isTerminating_of_endsWord h x hx)
  ⟨hplain.1, hplain.2.1⟩

instance : LawfulMonad Reader := .mk' _
  (fun r => by
    funext c
    change (match r c with
      | (.ok x, c') => (.ok x, c')
      | (.error e, c') => (.error e, c')) = r c
    obtain ⟨_ | x, d⟩ := r c <;> rfl)
  (fun _ _ => rfl)
  (fun r f g => by
    funext c
    simp only [bind_apply]
    obtain ⟨_ | x, d⟩ := r c <;> rfl)

theorem look_bind (q : Cursor → α) (k : α → Reader β) (c : Cursor) :
    (look q >>= k) c = k (q c) c := rfl

/-- A reader that reads a form of text, and nothing else. -/
structure Exact (r : Reader α) (F : Form α) : Prop where
  sound : ∀ {c x d}, r c = (.ok x, d) → F c.rest x d.rest
  complete : ∀ {cs x ds}, F cs x ds → ∀ p, ∃ d, r ⟨cs, p⟩ = (.ok x, d) ∧ d.rest = ds

/-- A reader of texts that are written in some way. What follows such a text may be cut off only
where a word may end. -/
structure ReadsText (r : Reader α) (writes : List Char → α → Prop) : Prop where
  sound : ∀ {c x d}, r c = (.ok x, d) → ∃ cs, writes cs x ∧ c.Past cs d
  complete : ∀ {cs x rest}, writes cs x → endsWord rest = true → ∀ p,
    r ⟨cs ++ rest, p⟩ = (.ok x, ⟨rest, p.after cs⟩)

theorem argumentEnd_apply (c : Cursor) : argumentEnd c =
    if endsWord c.rest then (.ok (), c.skipSpaces) else (.error .expectedTerminator, c) := by
  unfold argumentEnd
  rw [bind_apply, look, c.terminated_eq]
  cases endsWord c.rest <;> rfl

theorem argumentEnd_eq_ok {u : Unit} :
    argumentEnd c = (.ok u, d) ↔ endsWord c.rest = true ∧ d = c.skipSpaces := by
  rw [argumentEnd_apply]
  cases endsWord c.rest <;> simp [eq_comm]

/-- A value that has to end, and the spaces behind it. -/
theorem ReadsText.complete_end {r : Reader α} {writes : List Char → α → Prop} {x : α}
    (h : r.ReadsText writes) (hcs : writes cs x) (he : endsWord rest = true) (p : Position) :
    (do let x ← r; argumentEnd; return x) ⟨cs ++ rest, p⟩ =
      (.ok x, (Cursor.mk rest (p.after cs)).skipSpaces) := by
  rw [bind_apply, h.complete hcs he p]
  simp only [bind_apply, argumentEnd_apply, he, if_true, pure_apply]

theorem ReadsText.exact {r : Reader α} {writes : List Char → α → Prop} (h : r.ReadsText writes) :
    Exact (do let x ← r; argumentEnd; return x) (.spaced (.written writes)) where
  sound {c x d} hr := by
    obtain ⟨y, e, hy, hr⟩ := bind_eq_ok.mp hr
    obtain ⟨u, e', he, hr⟩ := bind_eq_ok.mp hr
    obtain ⟨rfl, rfl⟩ := ok_inj hr
    obtain ⟨cs, hcs, hpast⟩ := h.sound hy
    obtain ⟨hend, rfl⟩ := argumentEnd_eq_ok.mp he
    rw [e.rest_skipSpaces, hpast.1]
    exact .intro (.intro hcs hend)
  complete := by
    rintro _ x _ @⟨_, rest, _, @⟨cs, _, _, hcs, hend⟩⟩ p
    exact ⟨_, h.complete_end hcs hend p, Cursor.rest_skipSpaces _⟩

/-! ## Words -/

theorem untilTerminator_sound (h : untilTerminator c = (.ok w, d)) :
    (∀ x ∈ w, isTerminating x = false) ∧ c.Past w d ∧ endsWord d.rest = true := by
  obtain ⟨rfl, rfl⟩ := ok_inj h
  rw [Cursor.skipWhile_eq]
  refine ⟨fun x hx => by simpa using List.mem_takeWhile_imp hx,
    ⟨List.takeWhile_append_dropWhile.symm, rfl⟩, ?_⟩
  have hhead := List.head?_dropWhile_not (p := fun x => !isTerminating x) (l := c.rest)
  unfold endsWord
  cases hd : (c.rest.dropWhile fun x => !isTerminating x).head? with
  | none => rfl
  | some x => simpa [hd] using hhead

theorem untilTerminator_complete (hw : ∀ x ∈ w, isTerminating x = false)
    (he : endsWord rest = true) (p : Position) :
    untilTerminator ⟨w ++ rest, p⟩ = (.ok w, ⟨rest, p.after w⟩) := by
  have hahead : (Cursor.mk (w ++ rest) p).ahead (fun x => !isTerminating x) = w :=
    takeWhile_append_of_head? (fun x hx => by simp [hw x hx]) fun x hx => by
      simp [isTerminating_of_endsWord he x hx]
  simp only [untilTerminator, takeWhile, Cursor.skipWhile, hahead,
    Cursor.skip_append_of_length w rest p rfl]

theorem readsText_rawWord : rawWord.ReadsText WordText where
  sound {c s d} h := by
    obtain ⟨w, e, hw, h⟩ := bind_eq_ok.mp h
    obtain ⟨hplain, hpast, -⟩ := untilTerminator_sound hw
    split at h
    · simp at h
    split at h
    · simp at h
    · next hne hn =>
      obtain ⟨rfl, rfl⟩ := ok_inj h
      exact ⟨w, .intro (by simpa using hne) hplain (by simpa using hn), hpast⟩
  complete := by
    rintro w s rest ⟨hne, hw, hn⟩ he p
    unfold rawWord
    rw [bind_apply, untilTerminator_complete hw he]
    simp [hne, hn]

/-- A word is read up to where it ends, and with it the spaces behind it. -/
theorem word_append {s : String} (h : WordText w s) (he : endsWord rest = true) (p : Position) :
    word ⟨w ++ rest, p⟩ = (.ok s, (Cursor.mk rest (p.after w)).skipSpaces) :=
  readsText_rawWord.complete_end h he p

theorem exact_word : word.Exact (.spaced .word) :=
  ReadsText.exact readsText_rawWord

theorem exact_identifier : identifier.Exact (.spaced .identifier) where
  sound {c s d} h := by
    obtain ⟨w, e, hw, h⟩ := bind_eq_ok.mp h
    obtain ⟨-, hpast, hend⟩ := untilTerminator_sound hw
    split at h
    · simp at h
    split at h
    · simp at h
    split at h
    · simp at h
    split at h
    · simp at h
    · next hne hall hc hn =>
      obtain ⟨rfl, rfl⟩ := ok_inj h
      rw [hpast.1]
      refine e.rest_skipSpaces ▸ .intro (.intro (.intro (by simpa using hne) ?_ ?_ ?_) hend)
      · simpa using hall
      · omega
      · simpa using hn
  complete := by
    rintro _ _ _ @⟨_, rest, _, @⟨w, _, _, ⟨hne, hw, hc, hn⟩, he⟩⟩ p
    refine ⟨(Cursor.mk rest (p.after w)).skipSpaces, ?_, Cursor.rest_skipSpaces _⟩
    have hplain : ∀ x ∈ w, isTerminating x = false := fun x hx => by
      cases ht : isTerminating x with
      | false => rfl
      | true => simpa [hw x hx] using (plain_of_isTerminating ht).2.2
    unfold identifier
    rw [bind_apply, untilTerminator_complete hplain he]
    simp only [List.isEmpty_eq_false_iff.mpr hne, List.all_eq_true.mpr hw, Nat.not_lt_of_le hc, hn,
      Bool.not_true, Bool.false_eq_true, if_false]
    rfl

theorem text_apply (c : Cursor) : text c = if c.isAt '"' then quoted c else word c := by
  unfold text
  rw [bind_apply, look]
  cases c.isAt '"' <;> rfl

theorem quoted_exact {s : String} (h : quoted c = (.ok s, d)) :
    Form.spaced .quoted c.rest () d.rest := by
  obtain ⟨cs, e, hcs, hpast, rfl⟩ := quoted_sound h
  obtain ⟨vs, hn, hr, -⟩ := OnLine.ahead onLine_quoted c
  obtain ⟨ss, -, hs, -⟩ := e.ahead_skipSpaces
  -- The quoted string and the spaces behind it are all that is read, and that lies on the line.
  have hv : cs ++ ss = vs := by
    rw [h, hpast.1, hs, ← List.append_assoc] at hr
    exact List.append_cancel_right hr
  rw [e.rest_skipSpaces, hpast.1]
  exact .intro (.intro hcs fun h => hn (hv ▸ List.mem_append_left ss h))

/-! ## Numbers -/

theorem sign_sound {negative : Bool} (h : sign c = (.ok negative, d)) :
    ∃ s, SignText s negative ∧ c.Past s d := by
  rw [sign_apply] at h
  split at h
  · next hat =>
    obtain ⟨rfl, rfl⟩ := ok_inj h
    exact ⟨['-'], .minus, .advance hat⟩
  split at h
  · next hat =>
    obtain ⟨rfl, rfl⟩ := ok_inj h
    exact ⟨['+'], .plus, .advance hat⟩
  · obtain ⟨rfl, rfl⟩ := ok_inj h
    exact ⟨[], .none, rfl, rfl⟩

/-- A sign, or none, in front of a digit. -/
theorem sign_complete {s : List Char} {negative : Bool} {x : Char} (hs : SignText s negative)
    (hx : x.isDigit = true) (p : Position) :
    sign ⟨s ++ x :: rest, p⟩ = (.ok negative, ⟨x :: rest, p.after s⟩) := by
  cases hs with
  | plus | minus => rfl
  | none =>
    have hminus : x ≠ '-' := by
      rintro rfl
      simp at hx
    have hplus : x ≠ '+' := by
      rintro rfl
      simp at hx
    simp [sign, hminus, hplus]

theorem rawInteger_sound {n : Int} (h : rawInteger c = (.ok n, d)) :
    ∃ cs, IntegerText cs n ∧ c.Past cs d := by
  obtain ⟨negative, c', hs, h⟩ := bind_eq_ok.mp h
  obtain ⟨ds, c'', hd, h⟩ := bind_eq_ok.mp h
  obtain ⟨s, hsign, hpast⟩ := sign_sound hs
  obtain ⟨hdigits, hpast'⟩ := digits_sound hd
  split at h
  · next hf =>
    obtain ⟨rfl, rfl⟩ := ok_inj h
    exact ⟨_, .intro hsign hdigits hf, hpast.trans hpast'⟩
  · simp at h

theorem rawInteger_complete {n : Int} (h : IntegerText cs n)
    (hr : ∀ x ∈ rest.head?, x.isDigit = false) (p : Position) :
    rawInteger ⟨cs ++ rest, p⟩ = (.ok n, ⟨rest, p.after cs⟩) := by
  obtain @⟨s, ds, negative, hs, hd, hf⟩ := h
  obtain ⟨x, ds, rfl, hx⟩ := exists_cons_of_isDigits hd
  unfold rawInteger
  rw [bind_apply, List.append_assoc, List.cons_append, sign_complete hs hx]
  simp only [bind_apply]
  rw [← List.cons_append, digits_complete _ hd hr]
  simp only [hf, if_true, pure_apply, Position.after_append]

theorem readsText_rawInteger : rawInteger.ReadsText IntegerText :=
  ⟨rawInteger_sound, fun h he => rawInteger_complete h (delimited_of_endsWord he).isDigit⟩

theorem exact_integer : integer.Exact (.spaced .integer) :=
  ReadsText.exact readsText_rawInteger

theorem readsText_rawNumber : rawNumber.ReadsText NumberText where
  sound {c x d} h := by
    obtain ⟨negative, c', hs, h⟩ := bind_eq_ok.mp h
    obtain ⟨s, hsign, hpast⟩ := sign_sound hs
    obtain ⟨cs, hcs, hpast'⟩ := unsigned_sound h
    exact ⟨_, .intro hsign hcs, hpast.trans hpast'⟩
  complete := by
    rintro _ x rest @⟨s, cs, negative, _, hs, hx⟩ he p
    obtain ⟨y, ds, rfl, hy⟩ := hx.head
    unfold rawNumber
    rw [bind_apply, List.append_assoc, List.cons_append, sign_complete hs hy]
    simp only
    rw [← List.cons_append, unsigned_complete hx ((delimited_of_endsWord he).parted _),
      Position.after_append]

theorem exact_number : number.Exact (.spaced .number) :=
  ReadsText.exact readsText_rawNumber

/-! ## Coordinates -/

theorem beginsNumber_sign {s : List Char} {negative : Bool} {x : Char}
    (hs : SignText s negative) (hx : x.isDigit = true) (rest : List Char) :
    beginsNumber (s ++ x :: rest) = true := by
  cases hs with
  | plus | minus => rfl
  | none => simp [beginsNumber, isNumberStart, hx]

theorem beginsNumber_integer {n : Int} (h : IntegerText cs n) (rest : List Char) :
    beginsNumber (cs ++ rest) = true := by
  obtain @⟨s, ds, negative, hs, hd, -⟩ := h
  obtain ⟨x, ds, rfl, hx⟩ := exists_cons_of_isDigits hd
  rw [List.append_assoc]
  exact beginsNumber_sign hs hx _

theorem beginsNumber_number {x : Binary64} (h : Form.number cs x ds) :
    beginsNumber cs = true := by
  obtain ⟨@⟨s, cs, negative, _, hs, hx⟩, -⟩ := h
  obtain ⟨y, ds, rfl, hy⟩ := hx.head
  rw [List.append_assoc]
  exact beginsNumber_sign hs hy _

/-- A reader with another value in place of its own. -/
theorem Exact.const {r : Reader α} {F : Form α} (h : r.Exact F) (y : β) :
    Exact (r >>= fun _ => pure y) fun cs z ds => z = y ∧ ∃ x, F cs x ds where
  sound hr := by
    obtain ⟨x, e, hx, hr⟩ := bind_eq_ok.mp hr
    obtain ⟨rfl, rfl⟩ := ok_inj hr
    exact ⟨rfl, x, h.sound hx⟩
  complete := by
    rintro cs _ ds ⟨rfl, x, hx⟩ p
    obtain ⟨d, hr, hd⟩ := h.complete hx p
    exact ⟨d, bind_eq_ok.mpr ⟨x, d, hr, rfl⟩, hd⟩

/-- What is read behind the mark of a coordinate. -/
def offsetEnd (a : Anchor) : Reader Anchor := do
  offset
  argumentEnd
  return a

theorem offsetEnd_apply (a : Anchor) (c : Cursor) : offsetEnd a c =
    if beginsNumber c.rest then (number >>= fun _ => pure a) c
    else (argumentEnd >>= fun _ => pure a) c := by
  unfold offsetEnd offset number
  rw [bind_assoc, look_bind, startsNumber, ← beginsNumber]
  cases beginsNumber c.rest with
  | false => rfl
  | true => simp only [if_true, bind_assoc, pure_bind]

theorem exact_offsetEnd (a : Anchor) :
    (offsetEnd a).Exact fun cs b ds => b = a ∧ Form.spaced .offset cs () ds where
  sound {c b d} h := by
    rw [offsetEnd_apply] at h
    split at h
    · obtain ⟨hb, x, hx⟩ := (Exact.const exact_number a).sound h
      exact ⟨hb, hx.imp .number⟩
    · next hn =>
      obtain ⟨u, e, he, h⟩ := bind_eq_ok.mp h
      obtain ⟨rfl, rfl⟩ := ok_inj h
      obtain ⟨hend, rfl⟩ := argumentEnd_eq_ok.mp he
      rw [Cursor.rest_skipSpaces]
      exact ⟨rfl, .intro (.none (by simpa using hn) hend)⟩
  complete := by
    rintro cs b ds ⟨hb, @⟨_, ds, _, h⟩⟩ p
    cases h with
    | @number _ _ x h =>
      obtain ⟨d, hr, hd⟩ := (Exact.const exact_number a).complete ⟨hb, x, .intro h⟩ p
      exact ⟨d, by rw [offsetEnd_apply, if_pos (beginsNumber_number h), hr], hd⟩
    | none hn he =>
      refine ⟨_, ?_, Cursor.rest_skipSpaces ⟨cs, p⟩⟩
      rw [offsetEnd_apply, if_neg (by simp [hn]), bind_apply, argumentEnd_apply, if_pos he, hb]
      rfl

theorem coordinate_apply (c : Cursor) : coordinate c =
    if c.isAt '~' then offsetEnd .place c.advance
    else if c.isAt '^' then offsetEnd .view c.advance
    else if beginsNumber c.rest then (number >>= fun _ => pure .world) c
    else (.error .expectedPosition, c) := by
  unfold coordinate number
  rw [look_bind]
  split
  · rfl
  rw [look_bind]
  split
  · rfl
  rw [look_bind, startsNumber, ← beginsNumber]
  split
  · simp only [bind_assoc, pure_bind]
  · rfl

theorem exact_coordinate : coordinate.Exact (.spaced .coordinate) where
  sound {c a d} h := by
    have hmarked {m : Char} {b : Anchor} (hm : MarksAnchor m b) (hat : c.isAt m = true)
        (h : offsetEnd b c.advance = (.ok a, d)) : Form.spaced .coordinate c.rest a d.rest := by
      obtain ⟨rest, hr⟩ := Cursor.isAt_iff.mp hat
      obtain ⟨rfl, ho⟩ := (exact_offsetEnd b).sound h
      rw [Cursor.advance_of_rest hr] at ho
      rw [hr]
      exact ho.imp (.marked hm)
    rw [coordinate_apply] at h
    split at h
    · next hat => exact hmarked .tilde hat h
    split at h
    · next hat => exact hmarked .caret hat h
    split at h
    · obtain ⟨rfl, x, hx⟩ := (Exact.const exact_number Anchor.world).sound h
      exact hx.imp .absolute
    · simp at h
  complete := by
    rintro cs a ds @⟨_, ds, _, h⟩ p
    cases h with
    | @absolute _ _ x h =>
      have hn := beginsNumber_number h
      have hat {m : Char} (hm : isNumberStart m = false) : (Cursor.mk cs p).isAt m = false := by
        refine Bool.eq_false_iff.mpr fun hat => ?_
        obtain ⟨rest, rfl : cs = m :: rest⟩ := Cursor.isAt_iff.mp hat
        simp [beginsNumber, hm] at hn
      obtain ⟨d, hr, hd⟩ := (Exact.const exact_number Anchor.world).complete ⟨rfl, x, .intro h⟩ p
      refine ⟨d, ?_, hd⟩
      rw [coordinate_apply, hat (by decide), hat (by decide), if_pos hn]
      simpa using hr
    | @marked m _ cs _ hm h =>
      obtain ⟨d, hr, hd⟩ := (exact_offsetEnd a).complete ⟨rfl, .intro h⟩ (p.next m)
      refine ⟨d, ?_, hd⟩
      rw [coordinate_apply, Cursor.advance_of_rest rfl]
      cases hm <;> exact hr

/-! ## Texts -/

theorem exact_text : Exact (text >>= fun _ => pure ()) (.spaced .text) where
  sound {c u d} h := by
    obtain ⟨s, d, hs, h⟩ := bind_eq_ok.mp h
    obtain ⟨-, rfl⟩ := Prod.mk.inj h
    rw [text_apply] at hs
    split at hs
    · exact (quoted_exact hs).imp .left
    · exact (Exact.sound exact_word hs).imp fun h => .right (.intro h)
  complete := by
    rintro cs _ ds @⟨_, ds, _, h⟩ p
    cases h with
    | @left _ _ _ h =>
      obtain @⟨cs, _, hq, hn⟩ := h
      obtain ⟨s, hs⟩ := quoted_complete hq hn ds p
      have hat : (Cursor.mk (cs ++ ds) p).isAt '"' = true := by
        cases hq
        rfl
      exact ⟨_, bind_eq_ok.mpr ⟨s, _, by rw [text_apply, if_pos hat, hs], rfl⟩,
        Cursor.rest_skipSpaces _⟩
    | right h =>
      obtain @⟨_, _, w, h⟩ := h
      obtain ⟨d, hr, hd⟩ := Exact.complete exact_word (.intro h) p
      obtain ⟨x, es, rfl, hx⟩ := h.head
      have hat : (Cursor.mk (x :: es) p).isAt '"' = false := by
        refine decide_eq_false fun hq : x = '"' => ?_
        rw [hq] at hx
        exact absurd hx (by decide)
      exact ⟨d, bind_eq_ok.mpr ⟨w, d, by rw [text_apply, hat, ← hr]; rfl, rfl⟩, hd⟩

end Reader
end BedrockCommand

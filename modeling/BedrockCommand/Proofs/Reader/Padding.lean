import BedrockCommand.Proofs.Reader.Word
import BedrockCommand.Proofs.Source.Padding
import BedrockCommand.Reader.Number
/-!
Readers and the spaces at the end of a line. What a reader takes from a line it takes from the same
line with more spaces or fewer. A reader that passes over the spaces behind what it takes leaves
nothing of the one line where it leaves nothing of the other.
-/
namespace BedrockCommand.Reader

open Cursor (Padded Flush)

/-- A reader that takes the same from lines that differ in the spaces at their ends. What it leaves
of them is in a relation. -/
def Pads (R : Cursor → Cursor → Prop) (r : Reader α) : Prop :=
  ∀ c d x c', Padded c d → r c = (.ok x, c') → ∃ d', r d = (.ok x, d') ∧ R c' d'

variable {R S : Cursor → Cursor → Prop} {r : Reader α}

namespace Pads

theorem padded (h : r.Pads Flush) : r.Pads Padded := by
  intro c d x c' hp hr
  obtain ⟨d', hd, he⟩ := h c d x c' hp hr
  exact ⟨d', hd, he.padded⟩

theorem bind (hr : r.Pads Padded) {next : α → Reader β} (hn : ∀ x, (next x).Pads R) :
    (r >>= next).Pads R := by
  intro c d y e hp h
  obtain ⟨x, c', hc, hy⟩ := bind_eq_ok.mp h
  obtain ⟨d', hd, hp'⟩ := hr c d x c' hp hc
  obtain ⟨e', he, hR⟩ := hn x c' d' y e hp' hy
  exact ⟨e', bind_eq_ok.mpr ⟨x, d', hd, he⟩, hR⟩

/-- What goes on where nothing is left of both lines, or something of both, may only give a
value. -/
theorem bind_pure (hr : r.Pads R) (f : α → β) :
    (r >>= fun x => (pure (f x) : Reader β)).Pads R := by
  intro c d y e hp h
  obtain ⟨x, c', hc, hy⟩ := bind_eq_ok.mp h
  obtain ⟨rfl, rfl⟩ := ok_inj hy
  obtain ⟨d', hd, hR⟩ := hr c d x c' hp hc
  exact ⟨d', bind_eq_ok.mpr ⟨x, d', hd, rfl⟩, hR⟩

theorem ite {s : Reader α} (hr : r.Pads R) (hs : s.Pads R) (P : Prop) [Decidable P] :
    (if P then r else s).Pads R := by
  split
  · exact hr
  · exact hs

end Pads

theorem Pads.of_eq {s : Reader α} (hs : s.Pads R) (h : ∀ c, r c = s c) : r.Pads R :=
  (funext h : r = s) ▸ hs

/-- What is decided by a question that does not tell such lines apart. -/
theorem Pads.cond {s : Reader α} {q : Cursor → Bool} (hq : ∀ {c d}, Padded c d → q d = q c)
    (hr : r.Pads R) (hs : s.Pads R) : Pads R fun c => if q c then r c else s c := by
  intro c d x c' hp h
  dsimp only at h ⊢
  rw [hq hp]
  split at h
  · next hc => exact if_pos hc ▸ hr c d x c' hp h
  · next hc => exact if_neg hc ▸ hs c d x c' hp h

theorem pads_give (x : α) {f : Cursor → Cursor} (hf : ∀ {c d}, Padded c d → R (f c) (f d)) :
    Pads R fun c => (.ok x, f c) := by
  intro c d y c' hp h
  obtain ⟨rfl, rfl⟩ := ok_inj h
  exact ⟨f d, rfl, hf hp⟩

theorem pads_pure (x : α) : (pure x : Reader α).Pads Padded :=
  pads_give x id

theorem pads_fail (e : SyntaxError) : (fail e : Reader α).Pads R := by
  intro c d x c' _ h
  simp at h

/-- What is asked of a cursor does not tell such lines apart. -/
theorem pads_look {f : Cursor → α} (hf : ∀ {c d}, Padded c d → f d = f c) :
    (look f).Pads Padded := by
  intro c d x c' hp h
  obtain ⟨rfl, rfl⟩ := ok_inj h
  exact ⟨d, by rw [look, hf hp], hp⟩

theorem pads_isAt {x : Char} (hx : x ≠ ' ') : (look (·.isAt x)).Pads Padded :=
  pads_look fun h => h.isAt hx

theorem pads_move {f : Cursor → Cursor} (hf : ∀ {c d}, Padded c d → R (f c) (f d)) :
    (move f).Pads R :=
  pads_give () hf

theorem pads_advance : (move Cursor.advance).Pads Padded :=
  pads_move Padded.advance

theorem pads_spaces : spaces.Pads Flush :=
  pads_move Padded.skipSpaces

theorem pads_takeWhile {p : Char → Bool} (hp : p ' ' = false) : (takeWhile p).Pads Padded := by
  intro c d cs c' h hr
  obtain ⟨rfl, rfl⟩ := ok_inj hr
  exact ⟨d.skipWhile p, by rw [takeWhile, h.ahead hp], h.skipWhile hp⟩

theorem pads_exactly {x : Char} (hx : x ≠ ' ') : (exactly x).Pads Padded :=
  .cond (fun h => h.isAt hx) (pads_give () Padded.advance) (pads_fail (.expectedChar x))

theorem pads_symbol {x : Char} (hx : x ≠ ' ') : (symbol x).Pads Flush :=
  (pads_exactly hx).bind fun _ => pads_spaces

theorem pads_argumentEnd : argumentEnd.Pads Flush :=
  (pads_look Padded.terminated).bind fun _ => .ite pads_spaces (pads_fail _) _

/-- A reader that has to end its argument. -/
theorem Pads.argumentEnd (hr : r.Pads Padded) {f : α → β} :
    (r >>= fun x => Reader.argumentEnd >>= fun _ => (pure (f x) : Reader β)).Pads Flush :=
  hr.bind fun x => .bind_pure pads_argumentEnd fun _ => f x

theorem pads_negation : negation.Pads Padded :=
  (pads_isAt (by decide)).bind fun _ =>
    .ite (pads_symbol (by decide)).padded (pads_pure _) _

theorem pads_spacesBefore {p : Char → Bool} (hp : p ' ' = false) :
    (spacesBefore p).Pads Padded := by
  have hspaces : Pads Padded fun c =>
      if c.skipSpaces.rest.head?.any p then (.ok true, c.skipSpaces) else (.ok false, c) :=
    .cond (fun h => h.skipSpaces.padded.head?_any hp)
      (pads_give true fun h => h.skipSpaces.padded) (pads_pure false)
  refine hspaces.of_eq fun c => ?_
  unfold spacesBefore
  cases c.skipSpaces.rest <;> rfl

/-! ## Numbers -/

theorem pads_startsNumber : (look startsNumber).Pads Padded :=
  pads_look fun h => h.head?_any (by decide)

theorem pads_sign : sign.Pads Padded := by
  have hsign : Pads Padded fun c => if c.isAt '-' then (.ok true, c.advance)
      else if c.isAt '+' then (.ok false, c.advance) else (.ok false, c) :=
    .cond (fun h => h.isAt (by decide)) (pads_give true Padded.advance)
      (.cond (fun h => h.isAt (by decide)) (pads_give false Padded.advance) (pads_pure false))
  refine hsign.of_eq fun c => ?_
  unfold sign Cursor.isAt
  rcases c.rest with _ | ⟨x, cs⟩
  · rfl
  by_cases hm : x = '-'
  · simp [hm]
  by_cases hp : x = '+' <;> simp [hm, hp]

theorem pads_digits (e : SyntaxError) : (digits e).Pads Padded :=
  (pads_takeWhile (by decide)).bind fun _ => .ite (pads_fail _) (pads_pure _) _

theorem pads_rawInteger : rawInteger.Pads Padded :=
  .bind pads_sign fun _ => (pads_digits _).bind fun _ => .ite (pads_pure _) (pads_fail _) _

theorem pads_integer : integer.Pads Flush :=
  .argumentEnd pads_rawInteger

theorem pads_unsigned (negative : Bool) : (unsigned negative).Pads Padded :=
  (pads_digits _).bind fun _ => (pads_isAt (by decide)).bind fun _ =>
    .ite (.bind pads_advance fun _ => (pads_digits _).bind_pure _) (pads_pure _) _

theorem pads_rawNumber : rawNumber.Pads Padded :=
  .bind pads_sign pads_unsigned

theorem pads_number : number.Pads Flush :=
  .argumentEnd pads_rawNumber

theorem pads_bound? : bound?.Pads Padded :=
  .bind pads_startsNumber fun _ => .ite (.bind_pure pads_rawInteger _) (pads_pure _) _

theorem pads_upperBound? : upperBound?.Pads Padded := by
  refine (pads_spacesBefore (by decide)).bind fun _ => .ite ?_ (pads_pure _) _
  exact .bind pads_advance fun _ => (pads_exactly (by decide)).bind fun _ =>
    (pads_spacesBefore (by decide)).bind fun _ =>
      .ite (.bind_pure pads_rawInteger _) (pads_pure _) _

theorem pads_range : range.Pads Flush := by
  refine .bind pads_negation fun _ => .bind pads_bound? fun low => ?_
  refine .bind pads_upperBound? fun high => ?_
  cases low <;> cases high
  case none.none => exact pads_fail _
  case some.some => exact .ite (pads_fail _) pads_argumentEnd _
  all_goals exact pads_argumentEnd

theorem pads_offset : offset.Pads Padded :=
  .bind pads_startsNumber fun _ => .ite (.bind_pure pads_rawNumber _) (pads_pure _) _

theorem pads_coordinate : coordinate.Pads Flush := by
  have hmark (a : Anchor) : (move Cursor.advance >>= fun _ => offset >>= fun _ =>
      argumentEnd >>= fun _ => (pure a : Reader Anchor)).Pads Flush :=
    .bind pads_advance fun _ => .argumentEnd pads_offset
  refine (pads_isAt (by decide)).bind fun _ => .ite (hmark .place) ?_ _
  refine (pads_isAt (by decide)).bind fun _ => .ite (hmark .view) ?_ _
  exact .bind pads_startsNumber fun _ => .ite (.argumentEnd pads_rawNumber) (pads_fail _) _

theorem pads_angle : angle.Pads Padded := by
  have hnumber : (number >>= fun _ => (pure () : Reader Unit)).Pads Padded :=
    .bind_pure (.padded pads_number) _
  exact (pads_isAt (by decide)).bind fun _ => .ite
    (.bind pads_advance fun _ => .bind pads_startsNumber fun _ => .ite hnumber (pads_pure _) _)
    hnumber _

theorem pads_experience : experience.Pads Flush := by
  have hletter : (look fun c => c.isAt 'L' || c.isAt 'l').Pads Padded :=
    pads_look fun h => by rw [h.isAt (by decide), h.isAt (by decide)]
  refine .bind pads_rawInteger fun n => hletter.bind fun _ => ?_
  exact .ite (.bind pads_advance fun _ => .bind_pure pads_argumentEnd _)
    (.bind_pure pads_argumentEnd _) _

theorem pads_jsonNumber : jsonNumber.Pads Flush := by
  have hminus : Pads (α := Bool) Padded fun c =>
      if c.isAt '-' then (.ok true, c.advance) else (.ok false, c) :=
    .cond (fun h => h.isAt (by decide)) (pads_give true Padded.advance) (pads_pure false)
  refine Pads.bind (hminus.of_eq fun c => ?_) fun negative =>
    (pads_unsigned negative).bind fun _ => .bind_pure pads_spaces _
  unfold Cursor.isAt
  rcases c.rest with _ | ⟨x, cs⟩
  · rfl
  by_cases hm : x = '-' <;> simp [hm]

/-! ## Words -/

theorem pads_untilTerminator : untilTerminator.Pads Padded :=
  pads_takeWhile (by decide)

theorem pads_rawWord : rawWord.Pads Padded :=
  .bind pads_untilTerminator fun _ =>
    .ite (pads_fail _) (.ite (pads_fail _) (pads_pure _) _) _

theorem pads_word : word.Pads Flush :=
  .argumentEnd pads_rawWord

/-- A text without quotes closes no quoted string. -/
theorem quoted?_eq_none {cs : List Char} (h : '"' ∉ cs) : quoted? cs = none := by
  fun_induction quoted? cs with
  | case1 | case4 => rfl
  | case2 | case3 => simp at h
  | case5 x rest _ _ _ ih => rw [ih fun hr => h (List.mem_cons_of_mem x hr), Option.map_none]

/-- A quoted string does not end in a text without quotes, and leaves it behind. -/
theorem quoted?_append_of_notMem {tail : List Char} (ht : '"' ∉ tail) (cs : List Char) :
    quoted? (cs ++ tail) = (quoted? cs).map fun (text, after) => (text, after ++ tail) := by
  fun_induction quoted? cs with
  | case1 => exact quoted?_eq_none ht
  | case2 rest => simp [quoted?]
  | case3 rest ih => simp [quoted?, ih, Function.comp_def]
  | case4 rest => simp [quoted?]
  | case5 x rest hq he hx ih =>
    have he' (ds : List Char) (hb : x = '\\') (hr : rest ++ tail = '"' :: ds) : False := by
      cases rest with
      | nil => exact ht (by simp [show tail = '"' :: ds from hr])
      | cons y rest => exact he rest hb (by simp [(List.cons.inj hr).1])
    rw [List.cons_append, quoted?.eq_4 _ _ hq he', if_neg hx, ih]
    simp [Function.comp_def]

theorem pads_rawQuoted : rawQuoted.Pads Padded := by
  refine (pads_exactly (by decide)).bind fun _ => ?_
  rintro ⟨cs, p⟩ ⟨ds, q⟩ w c' hp h
  obtain ⟨text, m, n, rfl, rfl⟩ := id hp.rest
  have hspaces (k : Nat) : '"' ∉ List.replicate k ' ' := by simp [List.mem_replicate]
  simp only [quoted?_append_of_notMem (hspaces _)] at h ⊢
  cases hq : quoted? text with
  | none => simp [hq] at h
  | some taken =>
    obtain ⟨content, after⟩ := taken
    -- The spaces behind the closing quote do not count for what has been read.
    have hlength (k : Nat) : (text ++ List.replicate k ' ').length -
        (after ++ List.replicate k ' ').length = text.length - after.length := by
      simp only [List.length_append]
      omega
    simp only [hq, Option.map_some, hlength] at h ⊢
    obtain ⟨rfl, rfl⟩ := ok_inj h
    exact ⟨_, rfl, hp.skip _⟩

theorem pads_quoted : quoted.Pads Flush :=
  .bind pads_rawQuoted fun _ => .bind_pure pads_spaces _

theorem pads_text : text.Pads Flush :=
  (pads_isAt (by decide)).bind fun _ => .ite pads_quoted pads_word _

theorem pads_identifier : identifier.Pads Flush :=
  .bind pads_untilTerminator fun _ =>
    .ite (pads_fail _) (.ite (pads_fail _) (.ite (pads_fail _) (.ite (pads_fail _)
      (.bind_pure pads_spaces _) _) _) _) _

theorem pads_boolean : boolean.Pads Flush :=
  .bind pads_rawWord fun _ =>
    .ite (.bind_pure pads_argumentEnd _) (.ite (.bind_pure pads_argumentEnd _) (pads_fail _) _) _

/-- What is left of a line goes without its trailing blanks. -/
theorem pads_line : line.Pads Flush := by
  intro c d w c' h hr
  obtain ⟨rfl, rfl⟩ := ok_inj hr
  exact ⟨d.toLineEnd, by rw [line, Cursor.lineText, Cursor.lineText, h.trimEnd_line], h.toLineEnd⟩

end BedrockCommand.Reader

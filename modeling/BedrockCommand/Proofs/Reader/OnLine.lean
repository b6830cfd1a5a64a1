import BedrockCommand.Proofs.Source.Line
import BedrockCommand.Reader.Basic
/-!
Readers that keep to their line: what such a reader gives and how far it goes depends on nothing
but what is left of the line. It depends neither on the lines below nor on where the line stands.
-/
namespace BedrockCommand

/-- What holds of a line alone can be asked of a cursor anywhere on such a line. -/
def Cursor.SeesLine (f : Cursor → α) : Prop :=
  ∀ line tail p, '\n' ∉ line → LineEnd tail → f ⟨line ++ tail, p⟩ = f ⟨line, .origin⟩

namespace Cursor

theorem isAt_append {x : Char} (hx : x ≠ '\n') {tail : List Char} (ht : LineEnd tail)
    (line : List Char) (p q : Position) :
    (Cursor.mk (line ++ tail) p).isAt x = (Cursor.mk line q).isAt x := by
  cases line with
  | nil => rcases ht.cases with rfl | ⟨cs, rfl⟩ <;> simp [Ne.symm hx]
  | cons y line => rfl

theorem seesLine_isAt {x : Char} (hx : x ≠ '\n') : SeesLine (·.isAt x) :=
  fun line _ p _ ht => isAt_append hx ht line p .origin

theorem seesLine_ahead {q : Char → Bool} (hq : q '\n' = false) : SeesLine (·.ahead q) :=
  fun line _ _ _ ht => ht.takeWhile_append hq line

theorem seesLine_terminated : SeesLine terminated := by
  intro line tail p _ ht
  cases line with
  | nil =>
    rcases ht.cases with rfl | ⟨cs, rfl⟩
    · rfl
    · exact (by decide : isTerminating '\n' = true)
  | cons y line => rfl

theorem seesLine_lineContinues : SeesLine lineContinues := by
  intro line tail p _ ht
  cases line with
  | nil => rcases ht.cases with rfl | ⟨cs, rfl⟩ <;> simp [lineContinues]
  | cons y line => rfl

theorem seesLine_head?_any {q : Char → Bool} (hq : q '\n' = false) :
    SeesLine (·.rest.head?.any q) := by
  intro line tail p _ ht
  cases line with
  | nil => rcases ht.cases with rfl | ⟨cs, rfl⟩ <;> simp [hq]
  | cons y line => rfl

theorem SeesLine.eq_line {f : Cursor → α} (hf : SeesLine f) (c : Cursor) :
    f c = f ⟨c.line, .origin⟩ := by
  obtain ⟨tail, ht, hc⟩ := c.exists_line
  rw [hc, hf _ _ _ c.newline_notMem_line ht, ← hc]

theorem SeesLine.map {f : Cursor → α} (hf : SeesLine f) (g : α → β) : SeesLine fun c => g (f c) :=
  fun line tail p hl ht => congrArg g (hf line tail p hl ht)

theorem SeesLine.map₂ {f : Cursor → α} {f' : Cursor → β} (hf : SeesLine f) (hf' : SeesLine f')
    (g : α → β → γ) : SeesLine fun c => g (f c) (f' c) :=
  fun line tail p hl ht => congr (congrArg g (hf line tail p hl ht)) (hf' line tail p hl ht)

end Cursor

namespace Reader

/-- On a line, a reader comes to a result after some of its characters, whatever follows the line
and wherever the line stands. -/
def Reads (r : Reader α) (line : List Char) (v : Except SyntaxError α) (n : Nat) : Prop :=
  n ≤ line.length ∧ ∀ tail p, LineEnd tail →
    r ⟨line ++ tail, p⟩ = (v, ⟨line.drop n ++ tail, p.after (line.take n)⟩)

/-- A reader that sees no more of a line than the line itself. -/
def OnLineAt (r : Reader α) (line : List Char) : Prop :=
  ∃ v n, r.Reads line v n

/-- A reader that keeps to its line, whatever the line is. -/
def OnLine (r : Reader α) : Prop :=
  ∀ line, '\n' ∉ line → r.OnLineAt line

/-! ## Readers out of smaller ones -/

theorem onLine_pure (x : α) : OnLine (pure x : Reader α) := fun line _ =>
  ⟨.ok x, 0, Nat.zero_le _, fun _ _ _ => by simp⟩

theorem onLine_fail (e : SyntaxError) : OnLine (fail e : Reader α) := fun line _ =>
  ⟨.error e, 0, Nat.zero_le _, fun _ _ _ => by simp⟩

theorem OnLineAt.bind {r : Reader α} {line : List Char} (hr : r.OnLineAt line) {k : α → Reader β}
    (hk : ∀ x n, r.Reads line (.ok x) n → OnLineAt (k x) (line.drop n)) :
    OnLineAt (r >>= k) line := by
  obtain ⟨v, n, hn, hr⟩ := hr
  cases v with
  | error e => exact ⟨.error e, n, hn, fun tail p ht => by rw [bind_apply, hr tail p ht]⟩
  | ok x =>
    obtain ⟨w, m, hm, hk⟩ := hk x n ⟨hn, hr⟩
    refine ⟨w, n + m, by rw [List.length_drop] at hm; omega, fun tail p ht => ?_⟩
    rw [bind_apply, hr tail p ht]
    simp only [hk tail _ ht, List.drop_drop, List.take_add, Position.after_append]

theorem notMem_drop {x : α} {l : List α} (h : x ∉ l) (n : Nat) : x ∉ l.drop n :=
  fun h' => h (List.mem_of_mem_drop h')

theorem OnLine.bind {r : Reader α} (hr : OnLine r) {k : α → Reader β} (hk : ∀ x, OnLine (k x)) :
    OnLine (r >>= k) :=
  fun line hl => (hr line hl).bind fun x n _ => hk x _ (notMem_drop hl n)

theorem OnLine.ite {r s : Reader α} (hr : OnLine r) (hs : OnLine s) (P : Prop) [Decidable P] :
    OnLine (if P then r else s) := by
  split
  · exact hr
  · exact hs

theorem onLine_look {f : Cursor → α} (hf : Cursor.SeesLine f) : OnLine (look f) :=
  fun line hl => ⟨.ok (f ⟨line, .origin⟩), 0, Nat.zero_le _, fun tail p ht => by
    simp [look, hf line tail p hl ht]⟩

/-- A reader that looks before it goes on: in each case it knows what it saw. -/
theorem onLine_lookIf {q : Cursor → Bool} (hq : Cursor.SeesLine q) {r s : Reader α}
    (hr : ∀ line, '\n' ∉ line → q ⟨line, .origin⟩ = true → r.OnLineAt line) (hs : OnLine s) :
    OnLine (look q >>= fun b => if b = true then r else s) := by
  intro line hl
  have key (tail p) (ht : LineEnd tail) :
      (look q >>= fun b => if b = true then r else s) ⟨line ++ tail, p⟩ =
        (if q ⟨line, .origin⟩ = true then r else s) ⟨line ++ tail, p⟩ := by
    rw [bind_apply, look, hq line tail p hl ht]
  by_cases h : q ⟨line, .origin⟩ = true
  · obtain ⟨v, n, hn, hv⟩ := hr line hl h
    exact ⟨v, n, hn, fun tail p ht => by rw [key tail p ht, if_pos h, hv tail p ht]⟩
  · obtain ⟨v, n, hn, hv⟩ := hs line hl
    exact ⟨v, n, hn, fun tail p ht => by rw [key tail p ht, if_neg h, hv tail p ht]⟩

/-! ## What a reader that keeps to its line does from a cursor -/

theorem OnLine.ahead {r : Reader α} (hr : OnLine r) (c : Cursor) : c.Ahead (r c).2 := by
  obtain ⟨tail, ht, hc⟩ := c.exists_line
  obtain ⟨v, n, -, h⟩ := hr c.line c.newline_notMem_line
  rw [hc, h tail c.position ht]
  exact Cursor.ahead_append _ _ c.newline_notMem_line n

/-! ## The readers of single characters and of runs -/

theorem onLineAt_advance {line : List Char} (h : line ≠ []) :
    OnLineAt (move Cursor.advance) line := by
  obtain ⟨x, cs, rfl⟩ := List.exists_cons_of_ne_nil h
  exact ⟨.ok (), 1, by simp, fun tail p _ => by simp [move, Cursor.advance, Cursor.skip]⟩

theorem ne_nil_of_isAt {line : List Char} {p : Position} {x : Char}
    (h : Cursor.isAt ⟨line, p⟩ x = true) : line ≠ [] := by
  rintro rfl
  simp at h

/-- A reader that passes the character it stands on and goes on after it. -/
theorem onLineAt_advance_bind {line : List Char} {x : Char}
    (h : Cursor.isAt ⟨line, .origin⟩ x = true) (hl : '\n' ∉ line) {k : Unit → Reader α}
    (hk : ∀ u, OnLine (k u)) : OnLineAt (move Cursor.advance >>= k) line :=
  (onLineAt_advance (ne_nil_of_isAt h)).bind fun u n _ => hk u _ (notMem_drop hl n)

theorem onLine_takeWhile {q : Char → Bool} (hq : q '\n' = false) : OnLine (takeWhile q) := by
  intro line _
  have hle : (line.takeWhile q).length ≤ line.length := (List.takeWhile_prefix q).length_le
  refine ⟨.ok (line.takeWhile q), (line.takeWhile q).length, hle, fun tail p ht => ?_⟩
  simp only [takeWhile, Cursor.ahead, Cursor.skipWhile, ht.takeWhile_append hq,
    Cursor.skip_append _ _ hle]

theorem onLine_spaces : OnLine spaces := by
  intro line hl
  obtain ⟨v, n, hn, h⟩ := onLine_takeWhile (q := (· = ' ')) (by decide) line hl
  refine ⟨.ok (), n, hn, fun tail p ht => ?_⟩
  have := congrArg Prod.snd (h tail p ht)
  simp only [takeWhile] at this
  simp only [spaces, move, Cursor.skipSpaces, this]

theorem onLine_exactly {x : Char} (hx : x ≠ '\n') : OnLine (exactly x) := by
  intro line hl
  have hq := Cursor.seesLine_isAt hx
  cases hb : Cursor.isAt ⟨line, .origin⟩ x with
  | false =>
    exact ⟨.error (.expectedChar x), 0, Nat.zero_le _, fun tail p ht => by
      simp [exactly, hq line tail p hl ht, hb]⟩
  | true =>
    obtain ⟨cs, rfl : line = x :: cs⟩ := Cursor.isAt_iff.mp hb
    exact ⟨.ok (), 1, by simp, fun tail p _ => by simp [exactly, Cursor.advance, Cursor.skip]⟩

theorem symbol_apply (x : Char) (c : Cursor) : symbol x c =
    if c.isAt x then (.ok (), c.advance.skipSpaces) else (.error (.expectedChar x), c) := by
  unfold symbol
  rw [bind_apply, exactly]
  cases c.isAt x <;> rfl

theorem negation_apply (c : Cursor) : (negation c).2 =
    if c.isAt '!' then c.advance.skipSpaces else c := by
  unfold negation
  rw [bind_apply, look]
  cases h : c.isAt '!' <;> simp [h, symbol_apply]

theorem onLine_symbol {x : Char} (hx : x ≠ '\n') : OnLine (symbol x) :=
  (onLine_exactly hx).bind fun _ => onLine_spaces

theorem onLine_argumentEnd : OnLine argumentEnd :=
  (onLine_look Cursor.seesLine_terminated).bind fun _ =>
    .ite onLine_spaces (onLine_fail _) _

theorem onLine_negation : OnLine negation :=
  (onLine_look (Cursor.seesLine_isAt (by decide))).bind fun _ =>
    .ite (onLine_symbol (by decide)) (onLine_pure _) _

theorem onLine_spacesBefore {q : Char → Bool} (hq : q '\n' = false) : OnLine (spacesBefore q) := by
  intro line hl
  obtain ⟨v, n, hn, h⟩ := onLine_spaces line hl
  have hs (tail p) (ht : LineEnd tail) : (Cursor.mk (line ++ tail) p).skipSpaces =
      ⟨line.drop n ++ tail, p.after (line.take n)⟩ := congrArg Prod.snd (h tail p ht)
  cases hd : line.drop n with
  | nil =>
    -- Spaces are all that is left of the line, and they are not passed.
    refine ⟨.ok false, 0, Nat.zero_le _, fun tail p ht => ?_⟩
    simp only [spacesBefore, hs tail p ht, hd, List.nil_append]
    rcases ht.cases with rfl | ⟨cs, rfl⟩ <;> simp [hq]
  | cons x cs =>
    by_cases hx : q x = true
    · exact ⟨.ok true, n, hn, fun tail p ht => by simp [spacesBefore, hs tail p ht, hd, hx]⟩
    · exact ⟨.ok false, 0, Nat.zero_le _, fun tail p ht => by
        simp [spacesBefore, hs tail p ht, hd, hx]⟩

/-- Where spaces were passed for a character, that character is there. -/
theorem Reads.ne_nil_of_spacesBefore {q : Char → Bool} {line : List Char} {n : Nat}
    (h : (spacesBefore q).Reads line (.ok true) n) : line.drop n ≠ [] := by
  intro hd
  have h' := h.2 [] .origin lineEnd_nil
  simp only [hd, List.append_nil, spacesBefore] at h'
  split at h'
  · next x cs hx =>
    split at h'
    · rw [(Prod.mk.inj h').2] at hx
      simp at hx
    · simp at h'
  · simp at h'

end Reader
end BedrockCommand

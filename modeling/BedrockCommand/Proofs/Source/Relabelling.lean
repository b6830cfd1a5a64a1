import BedrockCommand.Proofs.Argument.Plain
import BedrockCommand.Proofs.Source.Line
import Mathlib.Data.List.Induction
/-!
Texts in which control characters stand for one another. The controls before the tab are no part
of anything that is ever asked for, so that a cursor on one such text sees what a cursor at the
same place of another one sees.
-/
namespace BedrockCommand

/-- The control characters that nothing asks for. The placeholder is one of them. -/
def inertChars : List Char :=
  ['\x00', '\x01', '\x02', '\x03', '\x04', '\x05', '\x06', '\x07', '\x08']

/-- A text without inert characters. -/
def LacksInert (cs : List Char) : Prop :=
  ∀ x ∈ cs, x ∉ inertChars

/-- A function that takes the inert characters for the same. -/
def Blind (f : Char → α) : Prop :=
  ∃ v, ∀ x ∈ inertChars, f x = v

/-- What stands in place of each character. Only inert characters give way, and only to others. -/
structure Relabelling where
  char : Char → Char
  inert (x : Char) : char x = x ∨ x ∈ inertChars ∧ char x ∈ inertChars

theorem lacksInert_of_all {cs : List Char} (h : cs.all (!inertChars.contains ·) = true) :
    LacksInert cs := by
  simpa [LacksInert] using h

/-- A test with one outcome for all inert characters. -/
theorem blind_of_all {p : Char → Bool} (b : Bool) (h : inertChars.all (p · == b) = true) :
    Blind p :=
  ⟨b, fun x hx => eq_of_beq (List.all_eq_true.mp h x hx)⟩

theorem notMem_inertChars_of_isPlainChar {x : Char} (h : isPlainChar x = true) :
    x ∉ inertChars := by
  have hall : inertChars.all (!isPlainChar ·) = true := by decide
  intro hx
  simpa [h] using List.all_eq_true.mp hall x hx

theorem lacksInert_of_isPlainWord {w : String} (h : isPlainWord w = true) :
    LacksInert w.toList :=
  fun _ hx => notMem_inertChars_of_isPlainChar (List.all_eq_true.mp h _ hx)

theorem LacksInert.append {cs ds : List Char} (hc : LacksInert cs) (hd : LacksInert ds) :
    LacksInert (cs ++ ds) :=
  List.forall_mem_append.mpr ⟨hc, hd⟩

theorem lacksInert_of_all_isDigit {cs : List Char} (h : ∀ x ∈ cs, x.isDigit = true) :
    LacksInert cs := by
  have hdigit : inertChars.all (!Char.isDigit ·) = true := by decide
  intro x hx hinert
  simpa [h x hx] using List.all_eq_true.mp hdigit x hinert

theorem blind_eq {q : Char} (hq : q ∉ inertChars) : Blind (fun x => decide (x = q)) :=
  ⟨false, fun _ hx => decide_eq_false fun h => hq (h ▸ hx)⟩

theorem Blind.not {p : Char → Bool} (h : Blind p) : Blind fun x => !p x :=
  h.imp' (! ·) fun _ hp x hx => congrArg (! ·) (hp x hx)

theorem blind_isTerminating : Blind isTerminating :=
  blind_of_all false (by decide)

namespace Relabelling

variable (φ : Relabelling) {p : Char → Bool} {q x : Char} {cs ds : List Char} {v w : String}

/-! ## Characters and words -/

theorem char_of_notMem (hx : x ∉ inertChars) : φ.char x = x :=
  (φ.inert x).resolve_right fun h => hx h.1

theorem char_of_notMem' (hx : φ.char x ∉ inertChars) : φ.char x = x :=
  (φ.inert x).resolve_right fun h => hx h.2

theorem char_eq_iff (hq : q ∉ inertChars) : φ.char x = q ↔ x = q := by
  constructor
  · rintro rfl
    exact (φ.char_of_notMem' hq).symm
  · rintro rfl
    exact φ.char_of_notMem hq

theorem apply_char {f : Char → α} (hf : Blind f) (x : Char) : f (φ.char x) = f x := by
  obtain ⟨v, hf⟩ := hf
  rcases φ.inert x with hx | ⟨hx, hx'⟩
  · rw [hx]
  · rw [hf _ hx, hf _ hx']

theorem comp_char {f : Char → α} (hf : Blind f) : f ∘ φ.char = f :=
  funext (φ.apply_char hf)

theorem all_map (hp : Blind p) (cs : List Char) : (cs.map φ.char).all p = cs.all p := by
  rw [List.all_map, φ.comp_char hp]

theorem takeWhile_map (hp : Blind p) (cs : List Char) :
    (cs.map φ.char).takeWhile p = (cs.takeWhile p).map φ.char := by
  rw [List.takeWhile_map, φ.comp_char hp]

theorem map_of_lacksInert (h : LacksInert cs) : cs.map φ.char = cs := by
  refine Eq.trans (List.map_congr_left fun x hx => ?_) (List.map_id cs)
  exact φ.char_of_notMem (h x hx)

theorem map_eq_iff (hd : LacksInert ds) : cs.map φ.char = ds ↔ cs = ds := by
  constructor
  · rintro rfl
    refine (φ.map_of_lacksInert fun x hx => ?_).symm
    have hx' := hd _ (List.mem_map_of_mem hx)
    exact φ.char_of_notMem' hx' ▸ hx'
  · rintro rfl
    exact φ.map_of_lacksInert hd

theorem isPrefixOf_map (hd : LacksInert ds) (cs : List Char) :
    ds.isPrefixOf (cs.map φ.char) = ds.isPrefixOf cs := by
  induction ds generalizing cs with
  | nil => simp
  | cons q ds ih =>
    cases cs with
    | nil => rfl
    | cons x cs =>
      obtain ⟨hq, hd⟩ := List.forall_mem_cons.mp hd
      have hx : (q == φ.char x) = (q == x) := by
        rw [Bool.eq_iff_iff, beq_iff_eq, beq_iff_eq, eq_comm, φ.char_eq_iff hq, eq_comm]
      rw [List.map_cons, List.isPrefixOf, List.isPrefixOf, hx, ih hd]

/-- A word of another text. -/
def word (w : String) : String := w.map φ.char

@[simp] theorem toList_word (w : String) : (φ.word w).toList = w.toList.map φ.char :=
  String.toList_map

theorem word_ofList (cs : List Char) :
    φ.word (String.ofList cs) = String.ofList (cs.map φ.char) :=
  String.toList_inj.mp (by simp)

theorem word_eq_iff (hv : isPlainWord v = true) : φ.word w = v ↔ w = v := by
  rw [← String.toList_inj, toList_word, φ.map_eq_iff (lacksInert_of_isPlainWord hv),
    String.toList_inj]

theorem word_of_isPlainWord (hw : isPlainWord w = true) : φ.word w = w :=
  (φ.word_eq_iff hw).mpr rfl

section

variable {allowed : List String} (h : allowed.all isPlainWord = true)
include h

theorem word_mem_iff : φ.word w ∈ allowed ↔ w ∈ allowed := by
  constructor
  · intro hw
    have hplain := List.all_eq_true.mp h _ hw
    exact (φ.word_eq_iff hplain).mp rfl ▸ hw
  · intro hw
    exact (φ.word_of_isPlainWord (List.all_eq_true.mp h _ hw)).symm ▸ hw

theorem word_of_mem (hw : w ∈ allowed) : φ.word w = w :=
  φ.word_of_isPlainWord (List.all_eq_true.mp h _ hw)

end

/-! ## Cursors -/

/-- The same place of another text. -/
def cursor (c : Cursor) : Cursor :=
  ⟨c.rest.map φ.char, c.position⟩

@[simp] theorem rest_cursor (c : Cursor) : (φ.cursor c).rest = c.rest.map φ.char := rfl

@[simp] theorem position_cursor (c : Cursor) : (φ.cursor c).position = c.position := rfl

theorem after_map (cs : List Char) (p : Position) : p.after (cs.map φ.char) = p.after cs := by
  induction cs generalizing p with
  | nil => rfl
  | cons x cs ih =>
    have hx : p.next (φ.char x) = p.next x := by
      unfold Position.next
      simp only [φ.char_eq_iff (by decide : '\n' ∉ inertChars)]
    rw [List.map_cons, Position.after_cons, Position.after_cons, hx, ih]

variable (c : Cursor)

theorem skip_cursor (n : Nat) : (φ.cursor c).skip n = φ.cursor (c.skip n) := by
  simp only [Cursor.skip, cursor, ← List.map_drop, ← List.map_take, after_map]

theorem advance_cursor : (φ.cursor c).advance = φ.cursor c.advance :=
  φ.skip_cursor c 1

theorem ahead_cursor (hp : Blind p) : (φ.cursor c).ahead p = (c.ahead p).map φ.char :=
  φ.takeWhile_map hp c.rest

theorem skipWhile_cursor (hp : Blind p) : (φ.cursor c).skipWhile p = φ.cursor (c.skipWhile p) := by
  rw [Cursor.skipWhile, φ.ahead_cursor c hp, List.length_map, skip_cursor]
  rfl

theorem skipSpaces_cursor : (φ.cursor c).skipSpaces = φ.cursor c.skipSpaces :=
  φ.skipWhile_cursor c (blind_eq (by decide))

theorem line_cursor : (φ.cursor c).line = c.line.map φ.char :=
  φ.ahead_cursor c (blind_of_all true (by decide))

theorem length_line_cursor : (φ.cursor c).line.length = c.line.length := by
  rw [line_cursor, List.length_map]

theorem toLineEnd_cursor : (φ.cursor c).toLineEnd = φ.cursor c.toLineEnd := by
  rw [Cursor.toLineEnd, length_line_cursor, skip_cursor]
  rfl

theorem atEnd_cursor : (φ.cursor c).atEnd = c.atEnd :=
  List.isEmpty_map

theorem head?_any_cursor (hp : Blind p) : (φ.cursor c).rest.head?.any p = c.rest.head?.any p := by
  cases h : c.rest with
  | nil => simp [h]
  | cons x cs => simp [h, φ.apply_char hp]

theorem isAt_cursor (hq : q ∉ inertChars) : (φ.cursor c).isAt q = c.isAt q := by
  obtain ⟨_ | ⟨x, cs⟩, p⟩ := c
  · rfl
  · exact φ.apply_char (blind_eq hq) x

theorem lineContinues_cursor : (φ.cursor c).lineContinues = c.lineContinues := by
  obtain ⟨_ | ⟨x, cs⟩, p⟩ := c
  · rfl
  · exact φ.apply_char (f := fun x => decide (x ≠ '\n')) (blind_of_all true (by decide)) x

theorem terminated_cursor : (φ.cursor c).terminated = c.terminated := by
  obtain ⟨_ | ⟨x, cs⟩, p⟩ := c
  · rfl
  · exact φ.apply_char blind_isTerminating x

theorem trimEnd_map (cs : List Char) :
    Text.trimEnd (cs.map φ.char) = (Text.trimEnd cs).map φ.char := by
  induction cs with
  | nil => rfl
  | cons x cs ih =>
    have hx : Text.isBlank (φ.char x) = Text.isBlank x :=
      φ.apply_char (blind_of_all false (by decide)) x
    rw [List.map_cons, Text.trimEnd, Text.trimEnd, ih, hx]
    cases Text.trimEnd cs with
    | nil => cases Text.isBlank x <;> rfl
    | cons => rfl

theorem lineText_cursor : (φ.cursor c).lineText = φ.word c.lineText := by
  rw [Cursor.lineText, line_cursor, trimEnd_map, ← word_ofList]
  rfl

/-- A quote without a backslash in front has none in front in the other text either. -/
theorem escape_map (h : ∀ ds, x = '\\' → cs = '"' :: ds → False) (ds : List Char)
    (hx : φ.char x = '\\') (hds : cs.map φ.char = '"' :: ds) : False := by
  obtain ⟨y, cs, rfl, hy, -⟩ := List.map_eq_cons_iff.mp hds
  rw [φ.char_eq_iff (by decide)] at hx hy
  exact h cs hx (hy ▸ rfl)

theorem separatorOffset_map (hq : q ∉ inertChars) (quoted : Bool) (depth : Nat)
    (cs : List Char) : separatorOffset q quoted depth (cs.map φ.char) =
      separatorOffset q quoted depth cs := by
  have hstep {x : Char} {cs : List Char} (he : ∀ ds, x = '\\' → cs = '"' :: ds → False)
      (ih : ∀ quoted depth, separatorOffset q quoted depth (cs.map φ.char) =
        separatorOffset q quoted depth cs) (quoted : Bool) (depth : Nat) :
      separatorOffset q quoted depth ((x :: cs).map φ.char) =
        separatorOffset q quoted depth (x :: cs) := by
    rw [List.map_cons, separatorOffset.eq_3 _ _ _ _ _ (φ.escape_map he),
      separatorOffset.eq_3 _ _ _ _ _ he]
    simp only [φ.char_eq_iff hq, ih, φ.char_eq_iff (by decide : '\n' ∉ inertChars),
      φ.char_eq_iff (by decide : '"' ∉ inertChars), φ.char_eq_iff (by decide : '[' ∉ inertChars),
      φ.char_eq_iff (by decide : ']' ∉ inertChars), φ.char_eq_iff (by decide : ',' ∉ inertChars),
      φ.char_eq_iff (by decide : '\x7b' ∉ inertChars),
      φ.char_eq_iff (by decide : '\x7d' ∉ inertChars)]
  -- An escaped quote takes two characters at once.
  induction cs using List.twoStepInduction generalizing quoted depth with
  | nil => rfl
  | singleton x => exact hstep (by simp) (fun _ _ => rfl) _ _
  | cons_cons x y cs ih ihy =>
    by_cases he : x = '\\' ∧ y = '"'
    · obtain ⟨rfl, rfl⟩ := he
      rw [List.map_cons, List.map_cons, φ.char_of_notMem (by decide),
        φ.char_of_notMem (by decide), separatorOffset, separatorOffset, ih]
    · refine hstep (fun ds hx hcs => he ⟨hx, ?_⟩) (fun _ _ => ihy y _ _) _ _
      exact (List.cons.inj hcs).1

theorem toSeparator_cursor (hq : q ∉ inertChars) :
    (φ.cursor c).toSeparator q = φ.cursor (c.toSeparator q) := by
  rw [Cursor.toSeparator, rest_cursor, φ.separatorOffset_map hq, skip_cursor]
  rfl

end Relabelling
end BedrockCommand

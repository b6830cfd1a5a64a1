import BedrockCommand.Proofs.Reader.Relabelling
import Mathlib.Data.List.Find
/-!
Arguments in texts in which control characters stand for one another: their tokens are the same,
but for the words that errors quote, and they answer the same.
-/
namespace BedrockCommand.Relabelling

variable (φ : Relabelling) {c : Cursor}

/-- The value of a token in another text. -/
def value : TokenValue → TokenValue
  | .error e => .error (φ.error e)
  | v => v

/-- What becomes of an argument in another text. -/
def reading (r : Reading α) : Reading α :=
  { r with value := φ.value r.value, cursor := φ.cursor r.cursor }

theorem map_word {allowed : List String} (h : allowed.all isPlainWord = true) :
    allowed.map φ.word = allowed :=
  (List.map_congr_left fun _ hw => φ.word_of_mem h hw).trans (List.map_id _)

/-! ## Readings -/

/-- Two ways to judge of which one judges in the other text as the other one does in the one. -/
def Judges (j j' : Cursor → Reading α) : Prop :=
  ∀ c, j' (φ.cursor c) = φ.reading (j c)

namespace Judges

open Reading

variable {φ} {j j' k k' : Cursor → Reading α} {x : α} {kind : TokenKind} {v v' : TokenValue}
  {e e' : SyntaxError}

theorem accept (hv : φ.value v = v') : φ.Judges (accept kind v x) (accept kind v' x) :=
  fun _ => hv ▸ rfl

theorem decided {kind' : TokenKind} (hk : kind' = kind) (hv : φ.value v = v') :
    φ.Judges (fun c => (undecided x c).decided kind v)
      (fun c => (undecided x c).decided kind' v') :=
  hk ▸ accept hv

theorem reject (he : φ.error e = e') : φ.Judges (reject e x) (reject e' x) :=
  fun _ => he ▸ rfl

theorem refuse (he : φ.error e = e') :
    φ.Judges (refuse e : Cursor → Reading α) (refuse e') :=
  fun _ => he ▸ rfl

theorem acceptIf {test test' : Bool} (ht : test' = test) (hv : φ.value v = v')
    (he : φ.error e = e') :
    φ.Judges (acceptIf test kind v e x) (acceptIf test' kind v' e' x) := by
  subst ht
  cases test' with
  | true => exact accept hv
  | false => exact reject he

section

variable {P P' : Prop} [Decidable P] [Decidable P'] (hP : P' ↔ P)
include hP

theorem ite (h : P → φ.Judges j j') (h' : ¬P → φ.Judges k k') :
    φ.Judges (if P then j else k) (if P' then j' else k') := by
  by_cases hp : P
  · rw [if_pos hp, if_pos (hP.mpr hp)]
    exact h hp
  · rw [if_neg hp, if_neg (hP.not.mpr hp)]
    exact h' hp

theorem ite_apply (h : P → φ.Judges j j') (h' : ¬P → φ.Judges k k') :
    φ.Judges (fun c => if P then j c else k c) (fun c => if P' then j' c else k' c) := by
  intro c
  by_cases hp : P
  · simpa only [if_pos hp, if_pos (hP.mpr hp)] using h hp c
  · simpa only [if_neg hp, if_neg (hP.not.mpr hp)] using h' hp c

end

theorem warnIf (h : φ.Judges j j') (test : Bool) (w : WarningKind) :
    φ.Judges (fun c => (j c).warnIf test w) (fun c => (j' c).warnIf test w) := by
  intro c
  cases test with
  | true => exact congrArg (fun r => { r with warning := some w }) (h c)
  | false => exact h c

/-- A judgement at another place of the text. -/
theorem comp (h : φ.Judges j j') {f f' : Cursor → Cursor}
    (hf : ∀ c, f' (φ.cursor c) = φ.cursor (f c)) :
    φ.Judges (fun c => j (f c)) (fun c => j' (f' c)) := by
  intro c
  simpa only [hf c] using h (f c)

theorem of {f : α' → β'} {r : Reader α'} {s : Reader β'} (hr : φ.Mirrors f r s)
    {judge : α' → Cursor → Reading α} {judge' : β' → Cursor → Reading α}
    (h : ∀ x, φ.Judges (judge x) (judge' (f x))) : φ.Judges (of r judge) (of s judge') := by
  intro c
  rw [Reading.of, Reading.of, hr c]
  obtain ⟨e | x, d⟩ := r c
  · rfl
  · exact h x d

end Judges

/-! ## Arguments -/

open Reader

theorem keeps_starOrInteger : φ.Keeps Argument.starOrInteger :=
  (Keeps.isAt (by decide)).bind fun _ => .ite
    ((Keeps.symbol (by decide)).bind fun _ => .pure _) (Keeps.integer.bind fun _ => .pure _)

theorem axesError?_map (earlier cs : List Char) :
    Argument.axesError? earlier (cs.map φ.char) = Argument.axesError? earlier cs := by
  have haxes : LacksInert ['x', 'y', 'z'] := lacksInert_of_all (by decide)
  induction cs generalizing earlier with
  | nil => rfl
  | cons x cs ih =>
    rw [List.map_cons, Argument.axesError?, Argument.axesError?]
    by_cases hx : x ∈ ['x', 'y', 'z']
    · rw [φ.char_of_notMem (haxes x hx), ih]
    · have hx' : φ.char x ∉ ['x', 'y', 'z'] := fun h =>
        hx (φ.char_of_notMem' (haxes _ h) ▸ h)
      rw [if_pos hx, if_pos hx']

theorem comparisonLength_cursor (c : Cursor) :
    Argument.comparisonLength (φ.cursor c) = Argument.comparisonLength c := by
  rw [Argument.comparisonLength, Argument.comparisonLength, φ.advance_cursor,
    φ.isAt_cursor _ (by decide), φ.isAt_cursor _ (by decide)]

theorem isFixed_of_axesError? {earlier cs : List Char} {e : SyntaxError}
    (h : Argument.axesError? earlier cs = some e) : e.isFixed = true := by
  fun_induction Argument.axesError? earlier cs with
  | case1 => simp at h
  | case2 | case3 => exact Option.some.inj h ▸ rfl
  | case4 => simp_all

/-- Arguments are read from the other text as from the one. -/
theorem judges_read {d : Dialect} (hd : d.selectorOptions.all isPlainWord = true) {a : Argument}
    (ha : d.Allows a) : φ.Judges a.read a.read := by
  have hboolean {w : String} :
      φ.word w = "true" ∨ φ.word w = "false" ↔ w = "true" ∨ w = "false" :=
    or_congr (φ.word_eq_iff rfl) (φ.word_eq_iff rfl)
  have hcontains {allowed : List String} (h : allowed.all isPlainWord = true) (w : String) :
      allowed.contains (φ.word w) = allowed.contains w := by
    rw [Bool.eq_iff_iff, List.contains_iff_mem, List.contains_iff_mem, φ.word_mem_iff h]
  cases a with
  | identifier => exact .of φ.mirrors_identifier fun _ => .accept rfl
  | word => exact .of φ.mirrors_word fun _ => .accept rfl
  | text role => exact .of φ.mirrors_text fun _ => .accept rfl
  | quoted => exact .of φ.mirrors_quoted fun _ => .accept rfl
  | quotedKey => exact .of φ.mirrors_quoted fun _ => .accept rfl
  | star role => exact .of (Keeps.symbol (by decide)) fun _ => .accept rfl
  | boolean => exact .of φ.keeps_boolean fun _ => .accept rfl
  | stateBoolean =>
    refine .of φ.mirrors_word fun w => .ite hboolean (fun _ => .accept ?_) fun _ => .reject rfl
    rw [decide_eq_decide.mpr (φ.word_eq_iff rfl)]
    rfl
  | integer least greatest => exact .of Keeps.integer fun _ => .acceptIf rfl rfl rfl
  | number bounds =>
    refine .of Keeps.number fun _ => .acceptIf rfl rfl ?_
    obtain _ | ⟨least, greatest⟩ := bounds <;> rfl
  | range => exact .of Keeps.range fun _ => .accept rfl
  | keyword allowed =>
    refine .of φ.mirrors_word fun w => .ite (φ.word_mem_iff ha) (fun hw => ?_) fun _ =>
      .refuse (congrArg (SyntaxError.invalidOption _) (φ.map_word ha))
    rw [φ.word_of_mem ha hw]
    exact .accept rfl
  | booleanOr allowed =>
    refine .of φ.mirrors_word fun w => .ite_apply (φ.word_mem_iff ha) (fun hw => ?_) fun _ =>
      .ite_apply hboolean (fun _ => ?_) fun _ => ?_
    · rw [φ.word_of_mem ha hw]
      exact .accept rfl
    · rw [decide_eq_decide.mpr (φ.word_eq_iff rfl)]
      exact .accept rfl
    · exact .refuse (congrArg SyntaxError.expectedBooleanOr (φ.map_word ha))
  | identifierOr allowed =>
    refine .of φ.mirrors_identifier fun w => .ite_apply (φ.word_mem_iff ha) (fun hw => ?_)
      fun _ => .accept rfl
    rw [φ.word_of_mem ha hw]
    exact .accept rfl
  | textOr allowed =>
    exact .of φ.mirrors_text fun w => .decided (if_congr (φ.word_mem_iff ha) rfl rfl) rfl
  | line missing =>
    show φ.Judges
      (Reading.of Reader.line fun l => Reading.acceptIf (l ≠ "") .string .none missing ())
      (Reading.of Reader.line fun l => Reading.acceptIf (l ≠ "") .string .none missing ())
    exact .of φ.mirrors_line fun l =>
      .acceptIf (decide_eq_decide.mpr (φ.word_eq_iff rfl).not) rfl (φ.error_of_isFixed ha)
  | lineOr allowed =>
    show φ.Judges
      (Reading.of Reader.line fun l c =>
        (Reading.undecided () c).decided (if l ∈ allowed then .option else .string) .none)
      (Reading.of Reader.line fun l c =>
        (Reading.undecided () c).decided (if l ∈ allowed then .option else .string) .none)
    exact .of φ.mirrors_line fun l => .decided (if_congr (φ.word_mem_iff ha) rfl rfl) rfl
  | coordinate earlier => exact .of Keeps.coordinate fun _ => .acceptIf rfl rfl rfl
  | selectorCoordinate => exact .of Keeps.coordinate fun _ => .acceptIf rfl rfl rfl
  | angle => exact .of Keeps.angle fun _ => .accept rfl
  | gameMode => exact .of Keeps.integer fun _ => .acceptIf rfl rfl rfl
  | difficulty => exact .of Keeps.number fun _ => .acceptIf rfl rfl rfl
  | experience => exact .of Keeps.experience fun _ => .accept rfl
  | spreadRange distance =>
    exact .of Keeps.number fun _ => .ite Iff.rfl (fun _ => .reject rfl) fun _ =>
      .acceptIf rfl rfl rfl
  | randomMaximum least => exact .of Keeps.integer fun _ => .acceptIf rfl rfl rfl
  | scoreBound least =>
    refine .of φ.keeps_starOrInteger fun n? => ?_
    cases n? with
    | none => exact .accept rfl
    | some n => exact .acceptIf rfl rfl rfl
  | permissionState =>
    exact .of φ.mirrors_word fun w => .acceptIf (hcontains rfl w) rfl rfl
  | axes =>
    refine .of φ.mirrors_word fun w => ?_
    rw [toList_word, axesError?_map]
    cases h : Argument.axesError? [] w.toList with
    | none => exact .accept rfl
    | some e => exact .reject (φ.error_of_isFixed (isFixed_of_axesError? h))
  | comparison =>
    have hskip (c : Cursor) : (φ.cursor c).skip (Argument.comparisonLength (φ.cursor c)) =
        φ.cursor (c.skip (Argument.comparisonLength c)) := by
      rw [φ.comparisonLength_cursor, φ.skip_cursor]
    exact .comp (.accept rfl) hskip
  | scoreOperator =>
    intro c
    have hskip (n : Nat) : φ.Judges (fun c => Reading.accept .option .none () (c.skip n))
        (fun c => Reading.accept .option .none () (c.skip n)) :=
      .comp (.accept rfl) fun c => φ.skip_cursor c n
    have hfind : Argument.scoreOperators.find? (fun o => o.toList.isPrefixOf (φ.cursor c).rest) =
        Argument.scoreOperators.find? (fun o => o.toList.isPrefixOf c.rest) := by
      have hplain : Argument.scoreOperators.all isPlainWord = true := by decide
      refine List.find?_congr fun o ho => ?_
      exact φ.isPrefixOf_map (lacksInert_of_isPlainWord (List.all_eq_true.mp hplain o ho)) c.rest
    simp only [Argument.read, hfind]
    cases Argument.scoreOperators.find? (fun o => o.toList.isPrefixOf c.rest) with
    | none => rfl
    | some o => exact hskip o.length c
  | selectorVariable =>
    intro c
    have hword (w : String) : φ.Judges
        (Reading.acceptIf (Argument.selectorVariables.contains w) .selector .none
          (.invalidSelectorVariable w) ())
        (Reading.acceptIf (Argument.selectorVariables.contains (φ.word w)) .selector .none
          (.invalidSelectorVariable (φ.word w)) ()) :=
      .acceptIf (hcontains (by decide) w) rfl rfl
    simp only [Argument.read, φ.advance_cursor, φ.mirrors_word c.advance]
    obtain ⟨e | w, c'⟩ := Reader.word c.advance
    · rfl
    · exact hword w c'
  | selectorOption allowed =>
    obtain rfl : allowed = d.selectorOptions := ha
    refine .of φ.mirrors_word fun w => .ite_apply (φ.word_mem_iff hd) (fun hw => ?_) fun _ =>
      .comp (.refuse rfl) φ.toLineEnd_cursor
    rw [φ.word_of_mem hd hw]
    exact .accept rfl
  | hasitemKey =>
    have hplain : Argument.hasitemKeys.all isPlainWord = true := by decide
    refine .of φ.mirrors_word fun w => .ite_apply (φ.word_mem_iff hplain) (fun hw => ?_) fun _ =>
      .comp (.reject rfl) fun c => φ.toSeparator_cursor c (by decide)
    rw [φ.word_of_mem hplain hw]
    exact .accept rfl
  | hasitemData => exact .of Keeps.integer fun _ => .warnIf (.acceptIf rfl rfl rfl) _ _
  | blockData => exact .of Keeps.integer fun _ => .warnIf (.acceptIf rfl rfl rfl) _ _
  | staleBlockData => exact .comp (.refuse rfl) Keeps.integer.cursor
  | jsonNumber => exact .of Keeps.jsonNumber fun _ => .accept rfl
  | jsonConstant w =>
    have hskip (c : Cursor) := φ.skip_cursor c w.length
    exact .ite_apply Iff.rfl (fun _ => .comp (.accept rfl) hskip) fun _ => .comp (.accept rfl) hskip

end BedrockCommand.Relabelling

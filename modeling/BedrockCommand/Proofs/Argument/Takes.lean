import BedrockCommand.Argument
import BedrockCommand.Proofs.Reader.Range
import BedrockCommand.Proofs.Selector.Grammar
/-!
The arguments of selectors accept their forms and nothing else.
-/
namespace BedrockCommand

/-- A test that everything passes changes nothing. -/
theorem Form.sat_true (F : Form α) : F.sat (fun _ => True) = F := by
  funext cs x ds
  refine propext ⟨fun ⟨h, _⟩ => h, fun h => .intro h trivial⟩

theorem Form.any_unit (F : Form Unit) : any F = F := by
  funext cs u ds
  refine propext ⟨fun ⟨h⟩ => h, fun h => .intro h⟩

namespace Argument

open Reading

/-- An argument that accepts a form of text at a cursor and answers what the form means. Every other
text there is an error. -/
structure TakesAt (a : Argument) (F : Form β) (answer : β → a.Answer) (c : Cursor) : Prop where
  sound : (a.read c).kind ≠ some .error → ∃ x ds, F c.rest x ds
  complete : ∀ {x ds}, F c.rest x ds → (a.read c).kind ≠ some .error ∧
    (a.read c).answer = some (answer x) ∧ (a.read c).cursor.rest = ds

/-- An argument that accepts a form of text wherever it is asked for. -/
def Takes (a : Argument) (F : Form β) (answer : β → a.Answer) : Prop :=
  ∀ c, a.TakesAt F answer c

/-- An argument that accepts what a reader gives if it passes a test. -/
theorem takes_of {a : Argument} {r : Reader β} {F : Form β} {p : β → Prop}
    {answer : β → a.Answer} {judge : β → Cursor → Reading a.Answer} (hr : r.Exact F)
    (ha : a.read = of r judge)
    (hyes : ∀ {cs y ds}, F cs y ds → p y → ∀ d, (judge y d).kind ≠ some .error ∧
      (judge y d).answer = some (answer y) ∧ (judge y d).cursor = d)
    (hno : ∀ {y}, ¬ p y → ∀ d, (judge y d).kind = some .error) : a.Takes (F.sat p) answer := by
  refine fun c => ⟨fun h => ?_, fun {y ds} h => ?_⟩
  · rw [ha, of] at h
    split at h
    · next y d hy =>
      by_cases hp : p y
      · exact ⟨y, d.rest, .intro (hr.sound hy) hp⟩
      · exact absurd (hno hp d) h
    · exact absurd rfl h
  · obtain ⟨hF, hp⟩ := h
    obtain ⟨d, hd, rfl⟩ := hr.complete hF c.position
    have hread : a.read c = judge y d := by
      rw [ha, of, hd]
    rw [hread]
    obtain ⟨hk, hx, hd⟩ := hyes hF hp d
    exact ⟨hk, hx, congrArg Cursor.rest hd⟩

/-- An argument that accepts whatever a reader gives. -/
theorem takes_of_accept {a : Argument} {r : Reader β} {F : Form β} {kind : TokenKind}
    {value : β → TokenValue} {answer : β → a.Answer} (hr : r.Exact F)
    (ha : a.read = of r fun y => accept kind (value y) (answer y)) (hk : kind ≠ .error) :
    a.Takes F answer := by
  rw [← F.sat_true]
  refine takes_of hr ha (fun _ _ _ => ⟨?_, rfl, rfl⟩) fun h => absurd trivial h
  simpa [accept] using hk

/-- An argument that tests what a reader gives. -/
theorem takes_of_acceptIf {a : Argument} {r : Reader β} {F : Form β} {p : β → Prop}
    {test : β → Bool} {kind : TokenKind} {value : β → TokenValue} {e : β → SyntaxError}
    {answer : β → a.Answer} (hr : r.Exact F)
    (ha : a.read = of r fun y => acceptIf (test y) kind (value y) (e y) (answer y))
    (hk : kind ≠ .error) (hp : ∀ {cs y ds}, F cs y ds → p y → test y = true)
    (hn : ∀ {y}, ¬ p y → test y = false) : a.Takes (F.sat p) answer := by
  refine takes_of hr ha (fun hF hy d => ?_) fun hy d => ?_
  · rw [hp hF hy]
    exact ⟨by simpa [acceptIf, accept] using hk, rfl, rfl⟩
  · rw [hn hy]
    rfl

theorem takes_identifier : identifier.Takes (.spaced .identifier) fun _ => () :=
  takes_of_accept Reader.exact_identifier rfl (by decide)

theorem takes_word : word.Takes (.spaced .word) fun _ => () :=
  takes_of_accept Reader.exact_word rfl (by decide)

theorem takes_range : range.Takes Form.rangeValue fun _ => () :=
  takes_of_accept Reader.exact_range rfl (by decide)

theorem takes_text (role : Role) : (text role).Takes (.spaced .text) fun _ => () := by
  have hread : (text role).read =
      of (Reader.text >>= fun _ => pure ()) fun _ => accept role.kind .none () := by
    funext c
    simp only [read, of, Reader.bind_apply]
    obtain ⟨_ | s, d⟩ := Reader.text c <;> rfl
  exact takes_of_accept Reader.exact_text hread (by cases role <;> decide)

/-- An integer whose bounds say of the integers of 32 bits what a test says. -/
theorem takes_integer {least : Int} {greatest : Option Int} {p : Int → Prop}
    (hp : ∀ {n}, Numeral.fits n = true → p n → liesIn least greatest n = true)
    (hn : ∀ {n}, ¬ p n → liesIn least greatest n = false) :
    (integer least greatest).Takes (Form.integer.spaced.sat p) id := by
  refine takes_of_acceptIf Reader.exact_integer rfl (by decide) (fun hF => hp ?_) hn
  obtain ⟨⟨⟨-, -, hf⟩, -⟩⟩ := hF
  exact hf

theorem takes_anyInteger : (integer Numeral.minInt none).Takes (.spaced .integer) id := by
  rw [← Form.sat_true (.spaced .integer)]
  refine takes_integer (fun hf _ => ?_) fun h => absurd trivial h
  simp only [Numeral.fits, Bool.and_eq_true] at hf
  simpa [liesIn] using hf.1

theorem takes_number {bounds : Option (Binary64 × Option Binary64)} {p : Binary64 → Prop}
    (hp : ∀ {x}, p x ↔ isWithin bounds x = true) :
    (number bounds).Takes (Form.number.spaced.sat p) id :=
  takes_of_acceptIf Reader.exact_number rfl (by decide) (fun _ => hp.mp) fun h =>
    Bool.eq_false_iff.mpr fun h' => h (hp.mpr h')

theorem takes_anyNumber : (number none).Takes (.spaced .number) id := by
  rw [← Form.sat_true (.spaced .number)]
  exact takes_number ⟨fun _ => rfl, fun _ => trivial⟩

theorem takes_selectorCoordinate :
    selectorCoordinate.Takes (Form.coordinate.spaced.sat (· ≠ .view)) fun _ => () :=
  takes_of_acceptIf Reader.exact_coordinate rfl (by decide) (fun _ h => by simpa using h)
    fun h => by simpa using h

theorem takes_gameMode :
    gameMode.Takes (Form.integer.spaced.sat (· ∈ [0, 1, 2, 5])) fun _ => () :=
  takes_of_acceptIf Reader.exact_integer rfl (by decide) (fun _ h => List.contains_iff_mem.mpr h)
    fun h => by simpa using h

theorem takes_hasitemData :
    hasitemData.Takes (Form.integer.spaced.sat fun n => -1 ≤ n ∧ n ≤ 32767) fun _ => () := by
  have hdata (n : Int) : isData n = decide (-1 ≤ n ∧ n ≤ 32767) := by
    simp [isData, liesIn]
  refine takes_of Reader.exact_integer rfl (fun {_ n _} _ hn d => ?_) fun {n} hn d => ?_
  · rw [hdata, decide_eq_true hn]
    cases h : decide (n < 0) <;> simp [acceptIf, warnIf, accept]
  · rw [hdata, decide_eq_false hn]
    rfl

/-- An argument that accepts the words of a list. -/
theorem takes_of_mem {a : Argument} {allowed : List String} {answer : String → a.Answer}
    {no : String → Cursor → Reading a.Answer} (ha : a.read = of Reader.word fun w c =>
      if w ∈ allowed then accept .option .none (answer w) c else no w c)
    (hno : ∀ w c, (no w c).kind = some .error) : a.Takes (.keyword allowed) answer := by
  refine takes_of Reader.exact_word ha (fun _ hw d => ?_) fun hw d => ?_
  · rw [if_pos hw]
    exact ⟨by simp [accept], rfl, rfl⟩
  · rw [if_neg hw]
    exact hno _ d

theorem takes_keyword (allowed : List String) : (keyword allowed).Takes (.keyword allowed) id := by
  have hread : (keyword allowed).read = of Reader.word fun w c =>
      if w ∈ allowed then accept .option .none w c else refuse (.invalidOption w allowed) c :=
    congrArg (of Reader.word) (funext fun w => funext fun c => ite_apply ..)
  exact takes_of_mem hread fun _ _ => rfl

theorem takes_selectorOption (allowed : List String) :
    (selectorOption allowed).Takes (.keyword allowed) id :=
  takes_of_mem rfl fun _ _ => rfl

theorem takes_hasitemKey : hasitemKey.Takes (.keyword hasitemKeys) some :=
  takes_of_mem rfl fun _ _ => rfl

theorem takes_permissionState :
    permissionState.Takes (.keyword ["enabled", "disabled"]) fun _ => () :=
  takes_of_acceptIf Reader.exact_word rfl (by decide) (fun _ h => List.contains_iff_mem.mpr h)
    fun h => by simpa using h

/-- Behind its mark, a selector variable is one of eight words. -/
theorem takesAt_selectorVariable {c : Cursor} (hat : c.isAt '@' = true) :
    selectorVariable.TakesAt (.marked '@' .selectorVariable) (fun _ => ()) c := by
  obtain ⟨rest, p⟩ := c
  obtain ⟨cs, rfl : rest = '@' :: cs⟩ := Cursor.isAt_iff.mp hat
  have hadvance : (Cursor.mk ('@' :: cs) p).advance = ⟨cs, p.next '@'⟩ := Cursor.advance_of_rest rfl
  refine ⟨fun h => ?_, fun {v ds} h => ?_⟩
  · simp only [read, hadvance] at h
    split at h
    · next w d hw =>
      by_cases hv : w ∈ selectorVariables
      · exact ⟨w, d.rest, .intro (.intro (Reader.Exact.sound Reader.exact_word hw) hv)⟩
      · rw [acceptIf, if_neg (by simpa using hv)] at h
        exact absurd rfl h
    · exact absurd rfl h
  · obtain ⟨hw, hv⟩ := h
    obtain ⟨d, hd, rfl⟩ := Reader.Exact.complete Reader.exact_word hw (p.next '@')
    have htest : selectorVariables.contains v = true := List.contains_iff_mem.mpr hv
    simp only [read, hadvance, hd, htest]
    exact ⟨by simp [acceptIf, accept], rfl, rfl⟩

end Argument
end BedrockCommand

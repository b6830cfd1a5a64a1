import BedrockCommand.Proofs.Argument.Reading
/-!
Arguments that are accepted and what they cover. Whatever is accepted as an argument has a character
at least, unless it is the rest of a line that may be anything.
-/
namespace BedrockCommand

open Reader

namespace Reading

/-- A reading from a cursor that covers a character at least, if it is accepted. -/
def Covers (c : Cursor) (r : Reading α) : Prop :=
  r.kind ≠ some .error → r.cursor.rest.length < c.rest.length

variable {c : Cursor}

theorem covers_of {r : Reader β} (hr : r.MovesOn) {judge : β → Cursor → Reading α}
    (hj : ∀ x d, (judge x d).kind ≠ some .error → (judge x d).cursor = d) :
    Covers c (of r judge c) := by
  intro hk
  rcases h : r c with ⟨e | x, d⟩
  · simp [of, h, refuse] at hk
  · simp only [of, h] at hk ⊢
    rw [hj x d hk]
    exact hr c x d h

theorem covers_stays {r : Reader β} (hr : r.MovesOn) {judge : β → Cursor → Reading α}
    (hj : ∀ x, Stays (judge x)) : Covers c (of r judge c) :=
  covers_of hr fun x d _ => (hj x).cursor d

theorem covers_skip {f : Cursor → Reading α} (hf : Stays f) {n : Nat} (hn : 0 < n)
    (hc : c.rest ≠ []) : Covers c (f (c.skip n)) := by
  intro _
  have hpos := List.length_pos_iff.mpr hc
  rw [hf.cursor, Cursor.skip, List.length_drop]
  omega

end Reading

namespace Argument

open Reading

/-- Whether an argument may be accepted without a character. -/
def mayBeEmpty : Argument → Bool
  | lineOr _ => true
  | jsonConstant w => w.isEmpty
  | _ => false

theorem movesOn_starOrInteger : starOrInteger.MovesOn :=
  .after (onLine_look (Cursor.seesLine_isAt (by decide))) fun _ =>
    .ite ((movesOn_symbol _).bind_pure _) (.bind_pure movesOn_integer _) _

/-- Something is left of a text that a question finds more in than in none. -/
theorem rest_ne_nil {l : Look} {c : Cursor} (h : l.holds ⟨c.line, .origin⟩ = true)
    (hl : l.holds ⟨[], .origin⟩ = false) : c.rest ≠ [] := by
  intro hc
  rw [Cursor.line, Cursor.ahead, hc, List.takeWhile_nil, hl] at h
  simp at h

theorem covers_scoreOperator {c : Cursor} : Covers c (scoreOperator.read c) := by
  intro hk
  simp only [read] at hk ⊢
  split at hk
  · next o ho =>
    have hlengths : ∀ o ∈ scoreOperators, 0 < o.length := by decide
    have hpos := hlengths o (List.mem_of_find?_eq_some ho)
    have hprefix : o.toList <+: c.rest :=
      List.isPrefixOf_iff_prefix.mp (by simpa using List.find?_some ho)
    have hle := hprefix.length_le
    rw [String.length_toList] at hle
    exact covers_skip stays_accept hpos (List.ne_nil_of_length_pos (by omega)) hk
  · exact absurd rfl hk

theorem covers_selectorVariable {c : Cursor} : Covers c (selectorVariable.read c) := by
  intro hk
  simp only [read] at hk ⊢
  rcases h : Reader.word c.advance with ⟨e | w, d⟩
  · simp [h, reject] at hk
  · rw [Stays.cursor stays_acceptIf]
    exact Nat.lt_of_lt_of_le (movesOn_word _ w d h) (length_advance_le c)

/-- An argument that is accepted, where it fits, covers a character at least. -/
theorem covers_read {a : Argument} (ha : a.mayBeEmpty = false) {known : Option Look}
    (hf : a.FitsAfter known) {c : Cursor} (hq : ∀ l ∈ known, l.holds ⟨c.line, .origin⟩ = true) :
    Covers c (a.read c) := by
  cases a with
  | identifier => exact covers_stays movesOn_identifier fun _ => stays_accept
  | word => exact covers_stays movesOn_word fun _ => stays_accept
  | text role => exact covers_stays movesOn_text fun _ => stays_accept
  | quoted => exact covers_stays movesOn_quoted fun _ => stays_accept
  | quotedKey => exact covers_stays movesOn_quoted fun _ => stays_accept
  | star role => exact covers_stays (movesOn_symbol _) fun _ => stays_accept
  | boolean => exact covers_stays movesOn_boolean fun _ => stays_accept
  | stateBoolean => exact covers_stays movesOn_word fun _ => .ite stays_accept stays_reject _
  | integer least greatest => exact covers_stays movesOn_integer fun _ => stays_acceptIf
  | number bounds => exact covers_stays movesOn_number fun _ => stays_acceptIf
  | range => exact covers_stays movesOn_range fun _ => stays_accept
  | keyword allowed => exact covers_stays movesOn_word fun _ => .ite stays_accept stays_refuse _
  | booleanOr allowed =>
    exact covers_stays movesOn_word fun _ =>
      .ite_apply stays_decided (.ite_apply stays_decided stays_refuse _) _
  | identifierOr allowed =>
    exact covers_stays movesOn_identifier fun _ => .ite_apply stays_decided stays_decided _
  | textOr allowed => exact covers_stays movesOn_text fun _ => stays_decided
  | line missing =>
    show Covers c (acceptIf (c.lineText ≠ "") .string .none missing () c.toLineEnd)
    intro hk
    have hline : c.line ≠ [] := by
      intro h
      simp [Cursor.lineText, h, Text.trimEnd, acceptIf, reject] at hk
    refine covers_skip stays_acceptIf (List.length_pos_iff.mpr hline) (fun h => hline ?_) hk
    rw [Cursor.line, Cursor.ahead, h, List.takeWhile_nil]
  | lineOr allowed => simp [mayBeEmpty] at ha
  | coordinate earlier => exact covers_stays movesOn_coordinate fun _ => stays_acceptIf
  | selectorCoordinate => exact covers_stays movesOn_coordinate fun _ => stays_acceptIf
  | angle => exact covers_stays movesOn_angle fun _ => stays_accept
  | gameMode => exact covers_stays movesOn_integer fun _ => stays_acceptIf
  | difficulty => exact covers_stays movesOn_number fun _ => stays_acceptIf
  | experience => exact covers_stays movesOn_experience fun _ => stays_accept
  | spreadRange distance =>
    exact covers_stays movesOn_number fun _ => .ite stays_reject stays_acceptIf _
  | randomMaximum least => exact covers_stays movesOn_integer fun _ => stays_acceptIf
  | scoreBound least =>
    refine covers_stays movesOn_starOrInteger fun n? => ?_
    cases n? with
    | none => exact stays_accept
    | some n => exact stays_acceptIf
  | permissionState => exact covers_stays movesOn_word fun _ => stays_acceptIf
  | axes =>
    refine covers_stays movesOn_word fun w => ?_
    cases h : axesError? [] w.toList with
    | none => exact stays_accept
    | some e => exact stays_reject
  | comparison =>
    have hpos : 0 < comparisonLength c := by
      unfold comparisonLength
      split <;> decide
    exact covers_skip stays_accept hpos (rest_ne_nil (hq _ hf) (by decide))
  | scoreOperator => exact covers_scoreOperator
  | selectorVariable => exact covers_selectorVariable
  | selectorOption allowed =>
    refine covers_of movesOn_word fun w d hk => ?_
    split at hk
    · next hw => rw [if_pos hw]; rfl
    · simp [refuse] at hk
  | hasitemKey =>
    refine covers_of movesOn_word fun w d hk => ?_
    split at hk
    · next hw => rw [if_pos hw]; rfl
    · simp [reject] at hk
  | hasitemData => exact covers_stays movesOn_integer fun _ => .warnIf stays_acceptIf _ _
  | blockData => exact covers_stays movesOn_integer fun _ => .warnIf stays_acceptIf _ _
  | staleBlockData => exact fun hk => absurd rfl hk
  | jsonNumber => exact covers_stays movesOn_jsonNumber fun _ => stays_accept
  | jsonConstant w =>
    have hlist : w.toList ≠ [] := by simpa [mayBeEmpty] using ha
    have hpos : 0 < w.length := by
      rw [← String.length_toList]
      exact List.length_pos_iff.mpr hlist
    exact covers_skip (stays_jsonConstant w) hpos
      (rest_ne_nil (hq _ hf) (decide_eq_false fun h => hlist h.symm))

end Argument
end BedrockCommand

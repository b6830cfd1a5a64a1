import BedrockCommand.Proofs.Argument.OnLine
import BedrockCommand.Proofs.Reader.Padding
/-!
Arguments and the spaces at the end of a line. An argument that is accepted on a line is accepted on
the same line with more spaces or fewer, as the same token with the same answer.
-/
namespace BedrockCommand

open Cursor (Padded Flush)

namespace Reading

/-- A reading that is the same on lines that differ in the spaces at their ends, if it is accepted.
What it leaves of them is in a relation. -/
def Pads (R : Cursor → Cursor → Prop) (f : Cursor → Reading α) : Prop :=
  ∀ c d, Padded c d → (f c).kind ≠ some .error →
    f d = (f c).endAt (f d).cursor ∧ R (f c).cursor (f d).cursor

variable {R : Cursor → Cursor → Prop}

theorem Pads.padded {f : Cursor → Reading α} (h : Pads Flush f) : Pads Padded f :=
  fun c d hp hk => (h c d hp hk).imp_right Flush.padded

/-- A value that is judged where it ends, if it is accepted. -/
theorem pads_of_accepted {r : Reader β} (hr : r.Pads R) {judge : β → Cursor → Reading α}
    (hj : ∀ x c d, (judge x c).kind ≠ some .error → judge x d = (judge x c).endAt d) :
    Pads R (of r judge) := by
  intro c d hp hk
  rcases hc : r c with ⟨e | x, c'⟩
  · simp [of, hc, refuse] at hk
  · obtain ⟨d', hd, hR⟩ := hr c d x c' hp hc
    simp only [of, hc, hd] at hk ⊢
    have hcursor (e : Cursor) : (judge x e).cursor = e := by
      rw [hj x c' e hk]
      rfl
    rw [hcursor, hcursor]
    exact ⟨hj x c' d' hk, hR⟩

theorem pads_of {r : Reader β} (hr : r.Pads R) {judge : β → Cursor → Reading α}
    (hj : ∀ x, Stays (judge x)) : Pads R (of r judge) :=
  pads_of_accepted hr fun x c d _ => hj x c d

theorem pads_refused {f : Cursor → Reading α} (h : ∀ c, (f c).kind = some .error) : Pads R f :=
  fun c _ _ hk => absurd (h c) hk

/-- A reading some characters further on, as many on both lines. -/
theorem pads_skip {f : Cursor → Reading α} (h : Stays f) {n : Cursor → Nat}
    (hn : ∀ {c d}, Padded c d → n d = n c) : Pads Padded fun c => f (c.skip (n c)) := by
  intro c d hp _
  simp only [h.cursor, hn hp]
  exact ⟨h _ _, hp.skip _⟩

end Reading

namespace Argument

open Reading Reader

/-- Whether an argument takes in the spaces behind it. -/
def takesSpaces : Argument → Bool
  | angle => false
  | comparison => false
  | scoreOperator => false
  | jsonConstant _ => false
  | _ => true

theorem pads_starOrInteger : starOrInteger.Pads Flush :=
  (pads_isAt (by decide)).bind fun _ =>
    .ite ((pads_symbol (by decide)).bind_pure _) (.bind_pure pads_integer _) _

theorem comparisonLength_padded {c d : Cursor} (h : Padded c d) :
    comparisonLength d = comparisonLength c := by
  rw [comparisonLength, h.isAt (by decide), h.advance.isAt (by decide), comparisonLength]

theorem pads_scoreOperator : Pads Padded scoreOperator.read := by
  intro c d hp hk
  have hfind : scoreOperators.find? (fun o => o.toList.isPrefixOf d.rest) =
      scoreOperators.find? (fun o => o.toList.isPrefixOf c.rest) := by
    have hspace : ∀ o ∈ scoreOperators, ' ' ∉ o.toList := by decide
    exact List.find?_congr fun o ho => hp.rest.isPrefixOf (hspace o ho)
  simp only [read, hfind] at hk ⊢
  split at hk
  · exact ⟨rfl, hp.skip _⟩
  · simp [refuse] at hk

theorem pads_selectorVariable : Pads Flush selectorVariable.read := by
  intro c d hp hk
  simp only [read] at hk ⊢
  rcases hc : Reader.word c.advance with ⟨e | w, c'⟩
  · simp [hc, reject] at hk
  · obtain ⟨d', hd, hflush⟩ := pads_word _ _ w c' hp.advance hc
    simp only [hc, hd] at hk ⊢
    rw [Stays.cursor stays_acceptIf, Stays.cursor stays_acceptIf]
    exact ⟨stays_acceptIf _ _, hflush⟩

/-- Every argument that takes in the spaces behind it leaves the lines flush. -/
theorem pads_read {a : Argument} (ha : a.takesSpaces = true) : Pads Flush a.read := by
  cases a with
  | identifier => exact pads_of pads_identifier fun _ => stays_accept
  | word => exact pads_of pads_word fun _ => stays_accept
  | text role => exact pads_of pads_text fun _ => stays_accept
  | quoted => exact pads_of pads_quoted fun _ => stays_accept
  | quotedKey => exact pads_of pads_quoted fun _ => stays_accept
  | star role => exact pads_of (pads_symbol (by decide)) fun _ => stays_accept
  | boolean => exact pads_of pads_boolean fun _ => stays_accept
  | stateBoolean => exact pads_of pads_word fun _ => .ite stays_accept stays_reject _
  | integer least greatest => exact pads_of pads_integer fun _ => stays_acceptIf
  | number bounds => exact pads_of pads_number fun _ => stays_acceptIf
  | range => exact pads_of pads_range fun _ => stays_accept
  | keyword allowed => exact pads_of pads_word fun _ => .ite stays_accept stays_refuse _
  | booleanOr allowed =>
    exact pads_of pads_word fun _ =>
      .ite_apply stays_decided (.ite_apply stays_decided stays_refuse _) _
  | identifierOr allowed =>
    exact pads_of pads_identifier fun _ => .ite_apply stays_decided stays_decided _
  | textOr allowed => exact pads_of pads_text fun _ => stays_decided
  | line missing => exact pads_of pads_line fun _ => stays_acceptIf
  | lineOr allowed => exact pads_of pads_line fun _ => stays_decided
  | coordinate earlier => exact pads_of pads_coordinate fun _ => stays_acceptIf
  | selectorCoordinate => exact pads_of pads_coordinate fun _ => stays_acceptIf
  | gameMode => exact pads_of pads_integer fun _ => stays_acceptIf
  | difficulty => exact pads_of pads_number fun _ => stays_acceptIf
  | experience => exact pads_of pads_experience fun _ => stays_accept
  | spreadRange distance => exact pads_of pads_number fun _ => .ite stays_reject stays_acceptIf _
  | randomMaximum least => exact pads_of pads_integer fun _ => stays_acceptIf
  | scoreBound least =>
    refine pads_of pads_starOrInteger fun n? => ?_
    cases n? with
    | none => exact stays_accept
    | some n => exact stays_acceptIf
  | permissionState => exact pads_of pads_word fun _ => stays_acceptIf
  | axes =>
    refine pads_of pads_word fun w => ?_
    cases h : axesError? [] w.toList with
    | none => exact stays_accept
    | some e => exact stays_reject
  | selectorVariable => exact pads_selectorVariable
  | selectorOption allowed =>
    refine pads_of_accepted pads_word fun w c d hk => ?_
    split at hk
    · next hw => simp only [if_pos hw]; rfl
    · simp [refuse] at hk
  | hasitemKey =>
    refine pads_of_accepted pads_word fun w c d hk => ?_
    split at hk
    · next hw => simp only [if_pos hw]; rfl
    · simp [reject] at hk
  | hasitemData => exact pads_of pads_integer fun _ => .warnIf stays_acceptIf _ _
  | blockData => exact pads_of pads_integer fun _ => .warnIf stays_acceptIf _ _
  | staleBlockData => exact pads_refused fun _ => rfl
  | jsonNumber => exact pads_of pads_jsonNumber fun _ => stays_accept
  | angle | comparison | scoreOperator | jsonConstant => simp [takesSpaces] at ha

theorem padded_read (a : Argument) : Pads Padded a.read := by
  cases ha : a.takesSpaces with
  | true => exact (pads_read ha).padded
  | false =>
    cases a with
    | angle => exact pads_of pads_angle fun _ => stays_accept
    | comparison => exact pads_skip stays_accept comparisonLength_padded
    | scoreOperator => exact pads_scoreOperator
    | jsonConstant w => exact pads_skip (stays_jsonConstant w) fun _ => rfl
    | _ => simp [takesSpaces] at ha

end Argument
end BedrockCommand

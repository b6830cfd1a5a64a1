import BedrockCommand.Text.Blank
import Mathlib.Data.List.TakeWhile
/-!
Texts and the blanks at their ends. All that is taken off a text is blanks, and what is left of it
neither begins nor ends with one.
-/
namespace BedrockCommand.Text

variable {before cs after : List Char}

/-- A text that does not end with a blank. -/
def Solid (cs : List Char) : Prop :=
  ∃ x ∈ cs.getLast?, isBlank x = false

theorem Solid.append {cs : List Char} (h : Solid cs) (ds : List Char) : Solid (ds ++ cs) := by
  obtain ⟨x, hx, hb⟩ := h
  refine ⟨x, ?_, hb⟩
  simpa [List.getLast?_append] using Or.inl hx

/-- Letters and digits lie between the blanks of ASCII and the others. -/
theorem isBlank_of_isAlphanum {x : Char} (h : x.isAlphanum = true) : isBlank x = false := by
  have hval : '0'.val ≤ x.val ∧ x.val ≤ 'z'.val := by
    rcases Bool.or_eq_true_iff.mp h with h | hdigit
    · rcases Bool.or_eq_true_iff.mp h with hupper | hlower
      · obtain ⟨hl, hh⟩ := of_decide_eq_true hupper
        exact ⟨UInt32.le_trans (by decide) hl, UInt32.le_trans hh (by decide)⟩
      · obtain ⟨hl, hh⟩ := Bool.and_eq_true_iff.mp hlower
        exact ⟨UInt32.le_trans (by decide) (of_decide_eq_true hl), of_decide_eq_true hh⟩
    · obtain ⟨hl, hh⟩ := Bool.and_eq_true_iff.mp hdigit
      exact ⟨of_decide_eq_true hl, UInt32.le_trans (of_decide_eq_true hh) (by decide)⟩
  have hlow : 48 ≤ x.toNat := UInt32.le_iff_toNat_le.mp hval.1
  have hhigh : x.toNat ≤ 122 := UInt32.le_iff_toNat_le.mp hval.2
  simp only [isBlank, Bool.or_eq_false_iff, Bool.and_eq_false_iff, decide_eq_false_iff_not,
    beq_eq_false_iff_ne]
  omega

theorem solid_concat (cs : List Char) {x : Char} (hx : isBlank x = false) : Solid (cs ++ [x]) :=
  ⟨x, by simp, hx⟩

/-- All that is taken off the end of a text is blanks. -/
theorem trimEnd_append {cs blanks : List Char} (hc : Solid cs)
    (hb : ∀ x ∈ blanks, isBlank x = true) : trimEnd (cs ++ blanks) = cs := by
  have hblanks : trimEnd blanks = [] := by
    induction blanks with
    | nil => rfl
    | cons x blanks ih =>
      obtain ⟨hx, hb⟩ := List.forall_mem_cons.mp hb
      simp [trimEnd, ih hb, hx]
  induction cs with
  | nil =>
    obtain ⟨x, hx, -⟩ := hc
    simp at hx
  | cons x cs ih =>
    rw [List.cons_append, trimEnd]
    cases cs with
    | nil =>
      obtain ⟨y, hy, hb⟩ := hc
      obtain rfl : x = y := by simpa using hy
      simp [hblanks, hb]
    | cons y cs =>
      rw [ih (by simpa [Solid, List.getLast?_cons] using hc)]

theorem trimEnd_append_drop (cs : List Char) : trimEnd cs ++ cs.drop (trimEnd cs).length = cs := by
  obtain ⟨blanks, hcs, -⟩ := exists_trimEnd_append cs
  exact List.prefix_iff_eq_append.mp ⟨blanks, hcs.symm⟩

/-! ## Both ends -/

theorem exists_trim_append (cs : List Char) : ∃ before after, cs = before ++ (trim cs ++ after) ∧
    (∀ x ∈ before, isBlank x = true) ∧ ∀ x ∈ after, isBlank x = true := by
  obtain ⟨after, hcs, hafter⟩ := exists_trimEnd_append (trimStart cs)
  refine ⟨cs.takeWhile isBlank, after, ?_, fun x => List.mem_takeWhile_imp, hafter⟩
  rw [trim, ← hcs, trimStart, List.takeWhile_append_dropWhile]

/-- A text without blanks is what is left when blanks around it are taken off. -/
theorem trim_append (hne : cs ≠ []) (hc : ∀ x ∈ cs, isBlank x = false)
    (hb : ∀ x ∈ before, isBlank x = true) (ha : ∀ x ∈ after, isBlank x = true) :
    trim (before ++ (cs ++ after)) = cs := by
  have hstart : trimStart (before ++ (cs ++ after)) = cs ++ after := by
    rw [trimStart, List.dropWhile_append_of_pos hb]
    cases cs with
    | nil => exact absurd rfl hne
    | cons x cs => exact List.dropWhile_cons_of_neg (by simp [hc x])
  have hsolid : Solid cs := by
    refine ⟨cs.getLast hne, List.getLast?_eq_some_getLast hne, ?_⟩
    exact hc _ (List.getLast_mem hne)
  rw [trim, hstart, trimEnd_append hsolid ha]

end BedrockCommand.Text

import BedrockCommand.Proofs.Version.Order
import BedrockCommand.Version.Versioned
/-!
The forms of a versioned thing: what stands among them, and what may be in force.
-/
namespace BedrockCommand.Versioned

/-- A form that gets its place is one more form. -/
theorem perm_place (t : Version) (f : α) (forms : List (Version × α)) :
    (place t f forms).Perm ((t, f) :: forms) := by
  induction forms with
  | nil => exact .refl _
  | cons form forms ih =>
    unfold place
    split
    · exact .refl _
    · exact (ih.cons form).trans (.swap ..)

theorem mem_forms_insert {r : Versioned α} {v t : Version} {x f : α} :
    (v, x) ∈ (r.insert t f).forms ↔ (v, x) = (t, f) ∨ (v, x) ∈ r.forms :=
  (perm_place t f r.forms).mem_iff.trans List.mem_cons

/-- A form that is in force stands among the forms, with a version that is not newer. -/
theorem mem_of_resolve? {r : Versioned α} {v : Version} {x : α} (h : r.resolve? v = some x) :
    ∃ t, t.atMost v = true ∧ (t, x) ∈ r.forms := by
  obtain ⟨⟨t, y⟩, hf, rfl⟩ := Option.map_eq_some_iff.mp h
  exact ⟨t, by simpa using List.find?_some hf, List.mem_of_find?_eq_some hf⟩

theorem resolve?_since (t : Version) (form : α) (v : Version) :
    (since t form).resolve? v = if t.atMost v = true then some form else none := by
  cases h : t.atMost v <;> simp [resolve?, since, h]

theorem resolve?_always (form : α) (v : Version) : (always form).resolve? v = some form := by
  rw [always, resolve?_since, if_pos v.oldest_atMost]

/-- A form that takes over from the one before it at some version. -/
theorem resolve?_insert {t : Version} (ht : Version.oldest.order t = .lt) (old new : α)
    (v : Version) : ((always old).insert t new).resolve? v =
      some (if t.atMost v = true then new else old) := by
  have hforms : ((always old).insert t new).forms = [(t, new), (.oldest, old)] := by
    simp [insert, always, since, place, ht]
  cases h : t.atMost v <;> simp [resolve?, hforms, h, Version.oldest_atMost]

end BedrockCommand.Versioned

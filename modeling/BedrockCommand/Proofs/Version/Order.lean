import BedrockCommand.Version.Basic
/-!
The order of versions.
-/
namespace BedrockCommand.Version

variable {u v w : Version}

theorem atMost_iff : v.atMost w = true ↔ v.major < w.major ∨ v.major = w.major ∧
    (v.minor < w.minor ∨ v.minor = w.minor ∧ v.patch ≤ w.patch) := by
  unfold atMost order
  simp only [bne_iff_ne, ne_eq, Ordering.then_eq_gt, not_or, not_and]
  simp only [Std.compare_eq_gt, Std.compare_eq_iff_eq, UInt32.lt_iff_toNat_lt,
    UInt32.le_iff_toNat_le, ← UInt32.toNat_inj]
  omega

theorem order_eq_lt_iff : v.order w = .lt ↔ w.atMost v = false := by
  rw [Bool.eq_false_iff, Ne, atMost_iff]
  unfold order
  simp only [Ordering.then_eq_lt]
  simp only [Std.compare_eq_lt, Std.compare_eq_iff_eq, UInt32.lt_iff_toNat_lt,
    UInt32.le_iff_toNat_le, ← UInt32.toNat_inj]
  omega

theorem atMost_trans (h : u.atMost v = true) (h' : v.atMost w = true) : u.atMost w = true := by
  simp only [atMost_iff, UInt32.lt_iff_toNat_lt, UInt32.le_iff_toNat_le, ← UInt32.toNat_inj] at *
  omega

theorem atMost_refl (v : Version) : v.atMost v = true :=
  atMost_iff.mpr (.inr ⟨rfl, .inr ⟨rfl, UInt32.le_refl _⟩⟩)

theorem atMost_of_order_eq_lt (h : v.order w = .lt) : v.atMost w = true := by
  rw [atMost, h]
  rfl

theorem order_ne_lt_self (v : Version) : v.order v ≠ .lt := by
  rw [Ne, order_eq_lt_iff, atMost_refl]
  exact Bool.noConfusion

theorem order_eq_lt_trans (h : u.order v = .lt) (h' : v.order w = .lt) : u.order w = .lt := by
  rw [order_eq_lt_iff, Bool.eq_false_iff, Ne, atMost_iff] at *
  simp only [UInt32.lt_iff_toNat_lt, UInt32.le_iff_toNat_le, ← UInt32.toNat_inj] at *
  omega

theorem atMost_antisymm (h : v.atMost w = true) (h' : w.atMost v = true) : v = w := by
  rw [atMost_iff] at h h'
  obtain ⟨major, minor, patch, _⟩ := v
  obtain ⟨major', minor', patch', _⟩ := w
  simp only [UInt32.lt_iff_toNat_lt, UInt32.le_iff_toNat_le, ← UInt32.toNat_inj,
    mk.injEq] at h h' ⊢
  omega

/-- Of two different versions one is older. -/
theorem order_eq_lt_of_ne (hne : v ≠ w) (h : w.order v ≠ .lt) : v.order w = .lt := by
  rw [Ne, order_eq_lt_iff, Bool.not_eq_false] at h
  rw [order_eq_lt_iff, Bool.eq_false_iff]
  exact fun h' => hne (atMost_antisymm h h')

/-- Of two versions, both or none are at least as new as a third one that is not between them. -/
theorem atMost_eq (h : v.atMost w = true) (hu : u.atMost v = true ∨ u.atMost w = false) :
    u.atMost w = u.atMost v := by
  cases hv : u.atMost v with
  | true => exact atMost_trans hv h
  | false => exact hu.resolve_left (by simp [hv])

/-- No version is older than the oldest grammar. -/
theorem oldest_atMost (v : Version) : oldest.atMost v = true := by
  have h := v.supported
  simp only [isSupported, Bool.or_eq_true, Bool.and_eq_true, decide_eq_true_eq,
    UInt32.lt_iff_toNat_lt, UInt32.le_iff_toNat_le, ← UInt32.toNat_inj] at h
  simp only [atMost_iff, oldest, UInt32.lt_iff_toNat_lt, UInt32.le_iff_toNat_le,
    ← UInt32.toNat_inj]
  simp at h ⊢
  omega

end BedrockCommand.Version

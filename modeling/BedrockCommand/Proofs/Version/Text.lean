import BedrockCommand.Proofs.Text.Trim
import BedrockCommand.Version.Basic
/-!
The texts of versions. A text denotes three numbers if, but for the blanks around it, it is these
numbers with points between them. Reading a text says just what it denotes, and the display of a
version is read back.
-/
namespace BedrockCommand.Version

variable {cs : List Char} {n major minor patch : UInt32} {text : String}

/-- A text that is one of the numbers of a version: a plus sign or none, and one or more digits with
a value below 2^32. -/
inductive PartText : List Char → UInt32 → Prop where
  | intro {sign digits : List Char} {n : UInt32} (hs : sign = [] ∨ sign = ['+'])
    (hd : Numeral.isDigits digits = true) (hn : Numeral.value digits = n.toNat) :
    PartText (sign ++ digits) n

/-- A text that is three numbers with points between them. -/
inductive TripleText : List Char → UInt32 → UInt32 → UInt32 → Prop where
  | intro {as bs cs : List Char} {major minor patch : UInt32} (ha : PartText as major)
    (hb : PartText bs minor) (hc : PartText cs patch) :
    TripleText (as ++ '.' :: (bs ++ '.' :: cs)) major minor patch

/-- Whether a text denotes three numbers, whatever blanks are around them. -/
def Denotes (text : String) (major minor patch : UInt32) : Prop :=
  ∃ before cs after, text.toList = before ++ (cs ++ after) ∧ TripleText cs major minor patch ∧
    (∀ x ∈ before, Text.isBlank x = true) ∧ ∀ x ∈ after, Text.isBlank x = true

/-- Whether three numbers come before those of the oldest version. -/
def PrecedesOldest (major minor patch : UInt32) : Prop :=
  List.Lex (· < ·) [major.toNat, minor.toNat, patch.toNat] [1, 19, 0]

instance : Decidable (PrecedesOldest major minor patch) :=
  inferInstanceAs (Decidable (List.Lex _ _ _))

/-- What comes of reading a text as a version. -/
structure ReadsText (text : String) (read : Except VersionError Version) : Prop where
  malformed : read = .error (.malformed text) ↔
    ¬ ∃ major minor patch, Denotes text major minor patch
  supported : ∀ major minor patch, Denotes text major minor patch →
    ¬ PrecedesOldest major minor patch →
    ∃ v, read = .ok v ∧ v.major = major ∧ v.minor = minor ∧ v.patch = patch
  unsupported : ∀ major minor patch, Denotes text major minor patch →
    PrecedesOldest major minor patch →
    read = .error (.unsupported (numbersText major minor patch))

/-! ## Numbers -/

theorem isDigit_of_isDigits {digits : List Char} (h : Numeral.isDigits digits = true) :
    ∀ x ∈ digits, x.isDigit = true :=
  List.all_eq_true.mp (Bool.and_eq_true_iff.mp h).2

theorem natural?_eq_some_iff {limit k : Nat} : Numeral.natural? limit cs = some k ↔
    ∃ sign digits, cs = sign ++ digits ∧ (sign = [] ∨ sign = ['+']) ∧
      Numeral.isDigits digits = true ∧ Numeral.value digits = k ∧ k < limit := by
  have hread (digits : List Char) : (if Numeral.isDigits digits ∧ Numeral.value digits < limit then
      some (Numeral.value digits) else none) = some k ↔
      Numeral.isDigits digits = true ∧ Numeral.value digits = k ∧ k < limit := by
    rw [Option.ite_none_right_eq_some, Option.some_inj]
    constructor
    · rintro ⟨⟨hd, hlt⟩, rfl⟩
      exact ⟨hd, rfl, hlt⟩
    · rintro ⟨hd, rfl, hlt⟩
      exact ⟨⟨hd, hlt⟩, rfl⟩
  unfold Numeral.natural?
  rw [hread]
  constructor
  · intro h
    split at h
    · next digits => exact ⟨['+'], digits, rfl, .inr rfl, h⟩
    · exact ⟨[], cs, rfl, .inl rfl, h⟩
  · rintro ⟨sign, digits, rfl, rfl | rfl, hd, h⟩
    · -- Digits do not begin with a sign.
      split
      · next digits' heq =>
        have hplus := isDigit_of_isDigits hd '+' (by simp [show digits = _ from heq])
        simp at hplus
      · exact ⟨hd, h⟩
    · exact ⟨hd, h⟩

theorem natural?_number {k : Nat} : Numeral.natural? (Nat.pow 2 32) cs = some k ↔
    ∃ n : UInt32, n.toNat = k ∧ PartText cs n := by
  rw [natural?_eq_some_iff]
  constructor
  · rintro ⟨sign, digits, rfl, hs, hd, hv, hlt⟩
    have hk : (UInt32.ofNat k).toNat = k := UInt32.toNat_ofNat_of_lt' hlt
    exact ⟨.ofNat k, hk, .intro hs hd (hv.trans hk.symm)⟩
  · rintro ⟨n, rfl, hs, hd, hv⟩
    exact ⟨_, _, rfl, hs, hd, hv, n.toNat_lt⟩

/-- Among the characters of a number there is neither a point nor a blank. -/
theorem PartText.isBlank_eq_false (h : PartText cs n) :
    ∀ x ∈ cs, x ≠ '.' ∧ Text.isBlank x = false := by
  obtain ⟨hs, hd, -⟩ := h
  intro x hx
  rcases List.mem_append.mp hx with hx | hx
  · obtain rfl | rfl := hs
    · simp at hx
    · obtain rfl := List.mem_singleton.mp hx
      decide
  · have hdigit := isDigit_of_isDigits hd x hx
    refine ⟨?_, Text.isBlank_of_isAlphanum (by simp [Char.isAlphanum, hdigit])⟩
    rintro rfl
    simp at hdigit

theorem PartText.notMem (h : PartText cs n) : '.' ∉ cs :=
  fun hp => (h.isBlank_eq_false '.' hp).1 rfl

/-! ## Three numbers -/

theorem split_eq_splitOn (cs : List Char) : split cs = cs.splitOn '.' := by
  induction cs with
  | nil => rfl
  | cons x cs ih =>
    rw [List.splitOn_cons_eq_if_modifyHead, split, ih]
    by_cases hx : x = '.'
    · simp [hx]
    · rw [if_neg hx, if_neg (by simpa using hx)]
      have hne := List.splitOn_ne_nil '.' cs
      cases h : cs.splitOn '.' with
      | nil => exact absurd h hne
      | cons part parts => rfl

/-- Three numbers with points between them are the parts of their text. -/
theorem tripleText_iff : TripleText cs major minor patch ↔ ∃ as bs ds,
    split cs = [as, bs, ds] ∧ PartText as major ∧ PartText bs minor ∧ PartText ds patch := by
  rw [split_eq_splitOn]
  constructor
  · rintro ⟨ha, hb, hc⟩
    refine ⟨_, _, _, ?_, ha, hb, hc⟩
    rw [List.splitOn_append_cons_self_of_not_mem ha.notMem,
      List.splitOn_append_cons_self_of_not_mem hb.notMem, List.splitOn_eq_singleton hc.notMem]
  · rintro ⟨as, bs, ds, hsplit, ha, hb, hc⟩
    have hcs : ['.'].intercalate (cs.splitOn '.') = cs := List.intercalate_splitOn '.'
    obtain rfl : as ++ '.' :: (bs ++ '.' :: ds) = cs := by
      simpa [List.intercalate, hsplit] using hcs
    exact .intro ha hb hc

theorem parts?_eq_some_iff : parts? cs = some (major, minor, patch) ↔
    TripleText cs major minor patch := by
  rw [tripleText_iff, parts?]
  constructor
  · intro h
    split at h
    · next a b c hparts =>
      obtain ⟨as, ps, hsplit, ha, hps⟩ := List.map_eq_cons_iff.mp hparts
      obtain ⟨bs, qs, rfl, hb, hqs⟩ := List.map_eq_cons_iff.mp hps
      obtain ⟨ds, rs, rfl, hc, hrs⟩ := List.map_eq_cons_iff.mp hqs
      obtain rfl := List.map_eq_nil_iff.mp hrs
      obtain ⟨x, rfl, hx⟩ := natural?_number.mp ha
      obtain ⟨y, rfl, hy⟩ := natural?_number.mp hb
      obtain ⟨z, rfl, hz⟩ := natural?_number.mp hc
      simp only [UInt32.ofNat_toNat, Option.some.injEq, Prod.mk.injEq] at h
      obtain ⟨rfl, rfl, rfl⟩ := h
      exact ⟨as, bs, ds, hsplit, hx, hy, hz⟩
    · simp at h
  · rintro ⟨as, bs, ds, hsplit, ha, hb, hc⟩
    simp only [hsplit, List.map_cons, List.map_nil, natural?_number.mpr ⟨_, rfl, ha⟩,
      natural?_number.mpr ⟨_, rfl, hb⟩, natural?_number.mpr ⟨_, rfl, hc⟩, UInt32.ofNat_toNat]

theorem TripleText.isBlank_eq_false (h : TripleText cs major minor patch) :
    ∀ x ∈ cs, Text.isBlank x = false := by
  obtain ⟨ha, hb, hc⟩ := h
  have hpoint : Text.isBlank '.' = false := by decide
  intro x hx
  simp only [List.mem_append, List.mem_cons] at hx
  rcases hx with hx | rfl | hx | rfl | hx
  · exact (ha.isBlank_eq_false x hx).2
  · exact hpoint
  · exact (hb.isBlank_eq_false x hx).2
  · exact hpoint
  · exact (hc.isBlank_eq_false x hx).2

theorem TripleText.ne_nil (h : TripleText cs major minor patch) : cs ≠ [] := by
  obtain ⟨-, -, -⟩ := h
  simp

/-- What a text denotes is told by what is between the blanks. -/
theorem denotes_iff : Denotes text major minor patch ↔
    TripleText (Text.trim text.toList) major minor patch := by
  constructor
  · rintro ⟨before, cs, after, ht, h, hb, ha⟩
    rw [ht, Text.trim_append h.ne_nil h.isBlank_eq_false hb ha]
    exact h
  · intro h
    obtain ⟨before, after, ht, hb, ha⟩ := Text.exists_trim_append text.toList
    exact ⟨before, _, after, ht, h, hb, ha⟩

/-! ## Reading -/

/-- The versions that are supported are the oldest one and those after it. -/
theorem isSupported_iff : isSupported major minor = true ↔
    ¬ PrecedesOldest major minor patch := by
  simp only [isSupported, PrecedesOldest, Bool.or_eq_true, Bool.and_eq_true, decide_eq_true_eq,
    UInt32.lt_iff_toNat_lt, UInt32.le_iff_toNat_le, ← UInt32.toNat_inj, UInt32.reduceToNat,
    List.cons_lex_cons_iff, List.not_lex_nil, and_false, or_false]
  omega

theorem parse_of_denotes (h : Denotes text major minor patch) :
    parse text = ofParts major minor patch := by
  rw [parse, parts?_eq_some_iff.mpr (denotes_iff.mp h)]

theorem parse_of_not_denotes (h : ¬ ∃ major minor patch, Denotes text major minor patch) :
    parse text = .error (.malformed text) := by
  cases hp : parts? (Text.trim text.toList) with
  | none => rw [parse, hp]
  | some p => exact absurd ⟨_, _, _, denotes_iff.mpr (parts?_eq_some_iff.mp hp)⟩ h

theorem ofParts_ne_malformed : ofParts major minor patch ≠ .error (.malformed text) := by
  unfold ofParts
  split <;> simp

/-- Reading a text is malformed just where nothing is denoted. -/
theorem readsText_parse (text : String) : ReadsText text (parse text) where
  malformed := by
    refine ⟨?_, parse_of_not_denotes⟩
    rintro h ⟨major, minor, patch, hd⟩
    exact ofParts_ne_malformed (parse_of_denotes hd ▸ h)
  supported major minor patch hd hle := by
    rw [parse_of_denotes hd, ofParts, dif_pos (isSupported_iff.mpr hle)]
    exact ⟨_, rfl, rfl, rfl, rfl⟩
  unsupported major minor patch hd hlt := by
    rw [parse_of_denotes hd, ofParts, dif_neg fun hs => ?_]
    exact isSupported_iff.mp hs hlt

/-! ## Displaying -/

theorem partText_toString (n : UInt32) : PartText (toString n.toNat).toList n := by
  have hlist : (toString n.toNat).toList = [] ++ Nat.toDigits 10 n.toNat := by
    simp [Nat.toString_eq_repr]
  have hdigit : ∀ x ∈ Nat.toDigits 10 n.toNat, x.isDigit = true := fun x hx =>
    Nat.isDigit_of_mem_toDigits (by decide) (by decide) hx
  have hvalue : Numeral.value (Nat.toDigits 10 n.toNat) = n.toNat := by
    rw [Numeral.value, ← Nat.ofDigitChars_eq_foldl,
      Nat.ofDigitChars_toDigits (by decide) (by decide)]
  rw [hlist]
  refine .intro (.inl rfl) ?_ hvalue
  rw [Numeral.isDigits, List.all_eq_true.mpr hdigit]
  simp [Nat.toDigits_ne_nil]

theorem denotes_numbersText (major minor patch : UInt32) :
    Denotes (numbersText major minor patch) major minor patch := by
  refine ⟨[], (numbersText major minor patch).toList, [], by simp, ?_, by simp, by simp⟩
  have hlist : (numbersText major minor patch).toList = (toString major.toNat).toList ++
      '.' :: ((toString minor.toNat).toList ++ '.' :: (toString patch.toNat).toList) := by
    simp [numbersText]
  rw [hlist]
  exact .intro (partText_toString _) (partText_toString _) (partText_toString _)

theorem parse_toString (v : Version) : parse (toString v) = .ok v := by
  have hdenotes : Denotes (toString v) v.major v.minor v.patch := denotes_numbersText ..
  rw [parse_of_denotes hdenotes, ofParts, dif_pos v.supported]

end BedrockCommand.Version

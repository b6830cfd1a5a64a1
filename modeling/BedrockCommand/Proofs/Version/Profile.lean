import BedrockCommand.CommandLine.Settings
import BedrockCommand.Proofs.Version.Text
import Mathlib.Data.List.Basic
/-!
The game versions that profiles ask for. A profile accepts the text of a version without blanks, and
does not look at how old the version is. So a run with the profile rejects the version, if at all,
for being too old.
-/
namespace BedrockCommand.Version

variable {cs : List Char} {text : String}

/-! ## Profiles -/

theorem isSome_natural?_iff : (Numeral.natural? (Nat.pow 2 32) cs).isSome = true ↔
    ∃ n, PartText cs n := by
  rw [Option.isSome_iff_exists]
  simp only [natural?_number]
  exact ⟨fun ⟨_, n, _, h⟩ => ⟨n, h⟩, fun ⟨n, h⟩ => ⟨_, n, rfl, h⟩⟩

/-- A profile counts the parts of a text and looks at each of them by itself. -/
theorem isVersion_iff : Profile.isVersion text = true ↔
    ∃ major minor patch, TripleText text.toList major minor patch := by
  rw [Profile.isVersion, Bool.and_eq_true, decide_eq_true_eq, List.all_eq_true]
  simp only [isSome_natural?_iff, tripleText_iff]
  constructor
  · rintro ⟨hlength, hparts⟩
    obtain ⟨as, bs, ds, hsplit⟩ := List.length_eq_three.mp hlength
    simp only [hsplit, List.forall_mem_cons] at hparts
    obtain ⟨⟨major, ha⟩, ⟨minor, hb⟩, ⟨patch, hd⟩, -⟩ := hparts
    exact ⟨major, minor, patch, as, bs, ds, hsplit, ha, hb, hd⟩
  · rintro ⟨major, minor, patch, as, bs, ds, hsplit, ha, hb, hd⟩
    rw [hsplit]
    simp only [List.forall_mem_cons, List.not_mem_nil, false_implies, implies_true, and_true]
    exact ⟨rfl, ⟨major, ha⟩, ⟨minor, hb⟩, patch, hd⟩

theorem denotes_of_isVersion (h : Profile.isVersion text = true) :
    ∃ major minor patch, Denotes text major minor patch := by
  obtain ⟨major, minor, patch, ht⟩ := isVersion_iff.mp h
  exact ⟨major, minor, patch, [], _, [], by simp, ht, by simp, by simp⟩

/-- A version text that a profile accepts is rejected for being too old, if it is rejected. -/
theorem ok_or_unsupported_of_isVersion (h : Profile.isVersion text = true) :
    (∃ v, parse text = .ok v) ∨ ∃ found, parse text = .error (.unsupported found) := by
  obtain ⟨major, minor, patch, hd⟩ := denotes_of_isVersion h
  rw [parse_of_denotes hd, ofParts]
  split
  · exact .inl ⟨_, rfl⟩
  · exact .inr ⟨_, rfl⟩

theorem isVersion_of_parse {p : Profile} {g : String} (h : Profile.parse text = .ok p)
    (hg : p.gameVersion = some g) : Profile.isVersion g = true := by
  have herror : p.error? = none := by
    unfold Profile.parse at h
    split at h
    · simp at h
    · split at h
      · simp at h
      · next he =>
        obtain rfl := Except.ok.inj h
        exact he
  unfold Profile.error? at herror
  split at herror
  · simp at herror
  split at herror
  · simp at herror
  by_contra hfalse
  simp [hg, Option.filter, hfalse] at herror

/-! ## Settings -/

section

open CommandLine

variable {files : Files} {o : Overrides} {path : String} {cause : VersionError}

section

variable {ε α β : Type} {f : α → Except ε β} {x? : Option α}

theorem except_bind_eq_error {x : Except ε α} {e : ε} :
    (x >>= f) = .error e ↔ x = .error e ∨ ∃ a, x = .ok a ∧ f a = .error e := by
  cases x <;> simp [bind, Except.bind]

theorem exists_of_mapM_eq_error {e : ε} (h : x?.mapM f = .error e) : ∃ x, f x = .error e := by
  cases x? with
  | none => cases h
  | some x =>
    refine ⟨x, ?_⟩
    cases hx : f x with
    | error e' => simpa [hx] using h
    | ok y => simp [hx] at h

theorem exists_of_mapM_eq_ok {y : β} (h : x?.mapM f = .ok (some y)) : ∃ x, f x = .ok y := by
  cases x? with
  | none => cases h
  | some x =>
    refine ⟨x, ?_⟩
    cases hx : f x with
    | error e => simp [hx] at h
    | ok y' => simpa [hx] using h

end

/-- A text that is stored is read back. -/
theorem decode_toUTF8 (text : String) : Files.decode text.toUTF8 = .ok text := by
  have hvalid : text.toUTF8.IsValidUTF8 := text.isValidUTF8
  rw [Files.decode, String.fromUTF8?, dif_pos hvalid]
  rfl

theorem loadProfile_ne_versionRejected :
    Settings.loadProfile files path ≠ .error (.versionRejected text cause) := by
  intro h
  rcases except_bind_eq_error.mp h with h | ⟨t, -, h⟩
  · cases ht : files.text path <;> simp [ht, Except.mapError] at h
  · cases ht : Profile.parse t <;> simp [ht, Except.mapError] at h

theorem isVersion_of_loadProfile {p : Profile} {g : String}
    (h : Settings.loadProfile files path = .ok p) (hg : p.gameVersion = some g) :
    Profile.isVersion g = true := by
  unfold Settings.loadProfile at h
  cases ht : files.text path with
  | error e => simp [ht, Except.mapError, bind, Except.bind] at h
  | ok t =>
    cases hp : Profile.parse t with
    | error e => simp [ht, hp, Except.mapError, bind, Except.bind] at h
    | ok q =>
      obtain rfl : q = p := by simpa [ht, hp, Except.mapError, bind, Except.bind] using h
      exact isVersion_of_parse hp hg

theorem chooseVersion_eq_error {g? : Option String}
    (h : Settings.chooseVersion g? = .error (.versionRejected text cause)) :
    g? = some text ∧ parse text = .error cause := by
  cases g? with
  | none => simp [Settings.chooseVersion] at h
  | some g =>
    cases hp : parse g with
    | ok v => simp [Settings.chooseVersion, hp, Except.mapError] at h
    | error e =>
      obtain ⟨rfl, rfl⟩ : g = text ∧ e = cause := by
        simpa [Settings.chooseVersion, hp, Except.mapError] using h
      exact ⟨rfl, hp⟩

/-- Where the command line gives no game version, the one that is rejected is that of a profile. -/
theorem isVersion_of_resolve (ho : o.gameVersion = none)
    (h : Settings.resolve files o = .error (.versionRejected text cause)) :
    Profile.isVersion text = true ∧ parse text = .error cause := by
  unfold Settings.resolve at h
  rcases except_bind_eq_error.mp h with h | ⟨p?, hp, h⟩
  · -- That a profile is not read is no matter of versions.
    obtain ⟨path, hload⟩ := exists_of_mapM_eq_error h
    exact absurd hload loadProfile_ne_versionRejected
  rcases except_bind_eq_error.mp h with h | ⟨v, -, h⟩
  · obtain ⟨hg, hparse⟩ := chooseVersion_eq_error h
    rw [ho] at hg
    obtain ⟨p, rfl, hg⟩ := Option.bind_eq_some_iff.mp hg
    obtain ⟨path, hload⟩ := exists_of_mapM_eq_ok hp
    exact ⟨isVersion_of_loadProfile hload hg, hparse⟩
  · simp only at h
    split at h <;> cases h

end

/-- Reading a text as a version is malformed just where the text is not, but for blanks around it,
three numbers with points between them. Otherwise it gives the version of the three numbers, or says
that it is too old. A version is read back from its display. What a profile accepts as a game
version is such a text without the blanks, so that a run rejects it, if at all, for being too
old. -/
theorem parse_exact :
    (∀ text, ReadsText text (parse text)) ∧
    (∀ v : Version, parse (toString v) = .ok v) ∧
    (∀ text, Profile.isVersion text = true → parse text ≠ .error (.malformed text)) ∧
    (∀ text, parse text ≠ .error (.malformed text) ↔
      Profile.isVersion (String.ofList (Text.trim text.toList)) = true) ∧
    (∀ text p g, Profile.parse text = .ok p → p.gameVersion = some g →
      (∃ v, parse g = .ok v) ∨ ∃ found, parse g = .error (.unsupported found)) ∧
    ∀ files (o : CommandLine.Overrides) g cause, o.gameVersion = none →
      CommandLine.Settings.resolve files o = .error (.versionRejected g cause) →
      ∃ found, cause = .unsupported found := by
  have hmalformed (text : String) : parse text ≠ .error (.malformed text) ↔
      ∃ major minor patch, Denotes text major minor patch := by
    rw [Ne, (readsText_parse text).malformed, not_not]
  refine ⟨readsText_parse, parse_toString, fun text h => ?_, fun text => ?_,
    fun text p g h hg => ?_, fun files o g cause ho h => ?_⟩
  · exact (hmalformed text).mpr (denotes_of_isVersion h)
  · simp only [hmalformed, denotes_iff, isVersion_iff, String.toList_ofList]
  · exact ok_or_unsupported_of_isVersion (isVersion_of_parse h hg)
  · obtain ⟨hg, hparse⟩ := isVersion_of_resolve ho h
    rcases ok_or_unsupported_of_isVersion hg with ⟨v, hv⟩ | ⟨found, hfound⟩
    · simp [hv] at hparse
    · exact ⟨found, Except.error.inj (hparse.symm.trans hfound)⟩

/-- A profile may ask for a version that is too old, which shows when a run makes use of it. -/
theorem parse_exact_too_old :
    let text := "\x7b\"id\":\"x\",\"schema_version\":\"1\",\"game_version\":\"1.18.30\"\x7d"
    let profile : Profile := ⟨"x", "1", some "1.18.30", none, none, none⟩
    let files : CommandLine.Files := ⟨fun _ => .ok text.toUTF8, .ok .empty⟩
    (Denotes " +1.020.0\t" 1 20 0 ∧ ∃ v, parse " +1.020.0\t" = .ok v ∧ v.minor = 20) ∧
    (Denotes "1.18.30" 1 18 30 ∧ parse "1.18.30" = .error (.unsupported "1.18.30")) ∧
    (Profile.isVersion "1.18.30" = true ∧ parse "1.18.30" ≠ .error (.malformed "1.18.30")) ∧
    (Profile.parse text = .ok profile ∧
      ((∃ v, parse "1.18.30" = .ok v) ∨ ∃ found, parse "1.18.30" = .error (.unsupported found))) ∧
    CommandLine.Settings.resolve files ⟨none, some "old.json", none, none⟩ =
        .error (.versionRejected "1.18.30" (.unsupported "1.18.30")) ∧
      ∃ found, VersionError.unsupported "1.18.30" = .unsupported found := by
  intro text profile files
  obtain ⟨hreads, -, haccepted, -, hprofile, hrun⟩ := parse_exact
  have hnew : Denotes " +1.020.0\t" 1 20 0 :=
    denotes_iff.mpr (parts?_eq_some_iff.mp (by decide +kernel))
  have hold : Denotes "1.18.30" 1 18 30 :=
    denotes_iff.mpr (parts?_eq_some_iff.mp (by decide +kernel))
  have hversion : Profile.isVersion "1.18.30" = true := by decide +kernel
  have hparse : Profile.parse text = .ok profile := by decide +kernel
  have hresolve : CommandLine.Settings.resolve files ⟨none, some "old.json", none, none⟩ =
      .error (.versionRejected "1.18.30" (.unsupported "1.18.30")) := by
    have htext : files.text "old.json" = .ok text := decode_toUTF8 text
    have hload : CommandLine.Settings.loadProfile files "old.json" = .ok profile := by
      simp [CommandLine.Settings.loadProfile, htext, hparse, Except.mapError, bind, Except.bind]
    have hread := (hreads _).unsupported 1 18 30 hold (by decide)
    have hchoose : CommandLine.Settings.chooseVersion (some "1.18.30") =
        .error (.versionRejected "1.18.30" (.unsupported "1.18.30")) := by
      rw [CommandLine.Settings.chooseVersion, hread]
      rfl
    exact except_bind_eq_error.mpr (.inr ⟨some profile, by simp [hload],
      except_bind_eq_error.mpr (.inl hchoose)⟩)
  obtain ⟨v, hv, -, hminor, -⟩ := (hreads _).supported 1 20 0 hnew (by decide)
  exact ⟨⟨hnew, v, hv, hminor⟩, ⟨hold, (hreads _).unsupported 1 18 30 hold (by decide)⟩,
    ⟨hversion, haccepted _ hversion⟩, ⟨hparse, hprofile text profile _ hparse rfl⟩,
    hresolve, hrun files _ _ _ rfl hresolve⟩

end BedrockCommand.Version

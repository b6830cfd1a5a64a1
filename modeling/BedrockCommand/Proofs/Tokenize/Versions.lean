import BedrockCommand.Proofs.Tokenize.Termination
import BedrockCommand.Proofs.Version.Versioned
import Mathlib.Data.List.Find
/-!
What a text is read as depends on the version only by the versions at which something changes: two
versions that follow the same ones of these read every text alike.
-/
namespace BedrockCommand

variable {v w : Version}

/-- Two versions of which each follows the same ones of some thresholds as the other. -/
def Version.AgreeOn (thresholds : List Version) (v w : Version) : Prop :=
  ∀ t ∈ thresholds, t.atMost v = true ↔ t.atMost w = true

theorem Versioned.resolve?_eq {r : Versioned α} (h : Version.AgreeOn r.thresholds v w) :
    r.resolve? v = r.resolve? w := by
  have hfind : r.forms.find? (fun form => form.1.atMost v) =
      r.forms.find? fun form => form.1.atMost w :=
    List.find?_congr fun _ hform => Bool.eq_iff_iff.mpr (h _ (List.mem_map_of_mem hform))
  exact congrArg (Option.map Prod.snd) hfind

namespace Grammar

theorem mem_meaningfulVersions {t : Version} : t ∈ meaningfulVersions ↔
    t ∈ commands.flatMap (fun (_, rules) => rules.thresholds) ++ blockSuffixes.thresholds ++
      selectorOptions.thresholds := by
  rw [meaningfulVersions, List.mem_mergeSort, List.mem_eraseDups]

/-- Nothing changes behind the latest version. -/
theorem atMost_latest_of_mem {t : Version} (h : t ∈ meaningfulVersions) :
    t.atMost .latest = true := by
  have hall : ∀ t ∈ commands.flatMap (fun (_, rules) => rules.thresholds) ++
      blockSuffixes.thresholds ++ selectorOptions.thresholds, t.atMost .latest = true := by
    decide
  exact hall t (mem_meaningfulVersions.mp h)

section

variable (h : Version.AgreeOn meaningfulVersions v w)
include h

theorem agreeOn_of_subset {thresholds : List Version}
    (hs : thresholds ⊆ commands.flatMap (fun (_, rules) => rules.thresholds) ++
      blockSuffixes.thresholds ++ selectorOptions.thresholds) :
    Version.AgreeOn thresholds v w :=
  fun t ht => h t (mem_meaningfulVersions.mpr (hs ht))

theorem command?_eq (name : String) : command? name v = command? name w := by
  unfold command?
  cases hl : commands.lookup name with
  | none => rfl
  | some rules =>
    refine Versioned.resolve?_eq (agreeOn_of_subset h fun t ht => ?_)
    refine List.mem_append_left _ (List.mem_append_left _ ?_)
    exact List.mem_flatMap.mpr ⟨(name, rules), Rule.mem_of_lookup hl, ht⟩

theorem dialect_eq : dialect v = dialect w := by
  have hsuffixes : blockSuffixes.resolve? v = blockSuffixes.resolve? w :=
    Versioned.resolve?_eq (agreeOn_of_subset h fun _ ht =>
      List.mem_append_left _ (List.mem_append_right _ ht))
  have hoptions : selectorOptions.resolve? v = selectorOptions.resolve? w :=
    Versioned.resolve?_eq (agreeOn_of_subset h fun _ ht => List.mem_append_right _ ht)
  rw [dialect, dialect, hsuffixes, hoptions]

end

end Grammar

section

variable (h : Version.AgreeOn Grammar.meaningfulVersions v w)
include h

theorem Command.body_eq (nested : Cursor → Step) : body v nested = body w nested := by
  funext c
  unfold body
  simp only [Grammar.command?_eq h, Grammar.dialect_eq h]

theorem Command.read_eq (depth : Nat) : read v depth = read w depth := by
  induction depth with
  | zero => exact funext fun c => congrArg Step.closeCommand (congrFun (body_eq h tooDeep) c)
  | succ depth ih =>
    funext c
    rw [read, read, ih, body_eq h]

theorem readLine_eq : readLine v = readLine w := by
  funext c
  simp only [readLine, Command.read_eq h]

theorem readLines_eq (fuel : Nat) : readLines v fuel = readLines w fuel := by
  induction fuel with
  | zero => rfl
  | succ fuel ih =>
    funext c
    rw [readLines, readLines, readLine_eq h, ih]

end

/-- Two versions read a text alike, with the same tokens and warnings, if each follows the same ones
of the versions at which something changes. So every version from the last one of these on reads it
as the latest version does. -/
theorem tokenize_meaningful (text : String) (start : Position) :
    (∀ v w : Version, (∀ t ∈ Grammar.meaningfulVersions, t.atMost v = true ↔ t.atMost w = true) →
      tokenize text start v = tokenize text start w) ∧
    ∀ v : Version, Version.v1_19_80.atMost v = true →
      tokenize text start v = tokenize text start .latest := by
  have hsame (v w : Version) (h : Version.AgreeOn Grammar.meaningfulVersions v w) :
      tokenize text start v = tokenize text start w := by
    simp only [tokenize, readText, readLines_eq h]
  refine ⟨hsame, fun v hv => hsame v .latest fun t ht => ?_⟩
  have hlatest := Grammar.atMost_latest_of_mem ht
  exact ⟨fun _ => hlatest, fun _ => Version.atMost_trans hlatest hv⟩

/-- Between 1.19.50 and 1.19.70 nothing changes. -/
theorem tokenize_meaningful_between :
    tokenize "setblock ~ ~ ~ stone 0" ⟨0, 0⟩ ⟨1, 19, 63, rfl⟩ =
      tokenize "setblock ~ ~ ~ stone 0" ⟨0, 0⟩ .v1_19_50 :=
  (tokenize_meaningful "setblock ~ ~ ~ stone 0" ⟨0, 0⟩).1 _ _ fun t ht =>
    have hall : ∀ t ∈ Grammar.commands.flatMap (fun (_, rules) => rules.thresholds) ++
        Grammar.blockSuffixes.thresholds ++ Grammar.selectorOptions.thresholds,
        t.atMost ⟨1, 19, 63, rfl⟩ = true ↔ t.atMost .v1_19_50 = true := by decide
    hall t (Grammar.mem_meaningfulVersions.mp ht)

end BedrockCommand

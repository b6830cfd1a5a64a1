import BedrockCommand.Proofs.Grammar.Regular
import BedrockCommand.Proofs.Rule.Sound
/-!
What newer versions keep of the grammar of older ones. What is read without an error is read in the
same way from then on, unless it is a data value of a block or an `execute`.
-/
namespace BedrockCommand

/-- An event that newer versions keep. Errors may become something else, data values of blocks
become errors, and `execute` is read differently unless that is ruled out. -/
def Event.IsKept (steady : Prop) : Event → Prop
  | .token t => t.kind ≠ .error ∧ (t.kind = .command → t.value = .command "execute" → steady)
  | .warning w => w.kind ≠ .blockData
  | .notice _ => True
  | .json _ => True

variable {steady : Prop} {c d : Cursor} {v v' : Version} {env env' : Env}

/-! ## Events that are not kept -/

namespace Step

theorem not_only_error {e : SyntaxError} {next : Cursor → Step} (h : c.Ahead d) :
    ¬ ((error e c d).andThen next).Only (Event.IsKept steady) := by
  intro hc
  have herror := hc.left
  rw [error_ahead e h] at herror
  exact (herror _ (List.mem_singleton_self _)).1 rfl

/-- An argument is kept if it is no error and has no warning about block data. -/
theorem Only.kept_argument {a : Argument} (ha : a.FitsAfter none)
    {next : a.Answer → Cursor → Step} (h : (Step.argument a c next).Only (Event.IsKept steady)) :
    (a.read c).kind ≠ some .error ∧ (a.read c).warning ≠ some .blockData := by
  have htoken := h.left
  obtain ⟨kind, hk⟩ := a.exists_kind_read c
  rw [hk, token_ahead _ _ _ (a.ahead_read ha c (by simp))] at htoken
  refine ⟨fun he => ?_, fun hw => ?_⟩
  · obtain rfl : kind = .error := Option.some.inj (hk.symm.trans he)
    exact (htoken _ (List.mem_cons_self ..)).1 rfl
  · have hkept : Event.IsKept steady (.warning ⟨.blockData, _⟩) :=
      htoken _ (by rw [hw]; exact List.mem_cons_of_mem _ (List.mem_singleton_self _))
    exact hkept rfl

end Step

theorem Argument.read_blockData (c : Cursor) :
    (Argument.blockData.read c).kind = some .error ∨
      (Argument.blockData.read c).warning = some .blockData := by
  simp only [read, Reading.of]
  split
  · exact .inr rfl
  · exact .inl rfl

/-- What is an option of both versions is read alike, and anything else is an error. -/
theorem Argument.read_selectorOption {allowed more : List String} (h : allowed ⊆ more)
    (c : Cursor) : ((selectorOption allowed).read c).kind = some .error ∨
      (selectorOption more).read c = (selectorOption allowed).read c := by
  simp only [read, Reading.of]
  split
  · next w _ _ =>
    by_cases hw : w ∈ allowed
    · exact .inr (by rw [if_pos hw, if_pos (h hw)])
    · exact .inl (by rw [if_neg hw]; rfl)
  · exact .inl rfl

/-! ## Questions to the version -/

namespace Grammar

theorem blockSuffix_dialect (v : Version) : (dialect v).blockSuffix =
    some (if Version.v1_19_70.atMost v = true then .states else .dataOrStates) :=
  Versioned.resolve?_insert rfl ..

theorem selectorOptions_dialect (v : Version) : (dialect v).selectorOptions =
    if Version.v1_19_80.atMost v = true then oldSelectorOptions ++ ["haspermission"]
    else oldSelectorOptions := by
  have h : selectorOptions.resolve? v = _ := Versioned.resolve?_insert rfl ..
  simp only [dialect, h, Option.getD_some]

/-- Newer versions have all selector options of older ones. -/
theorem selectorOptions_subset (h : v.atMost v' = true) :
    (dialect v).selectorOptions ⊆ (dialect v').selectorOptions := by
  simp only [selectorOptions_dialect]
  by_cases hv : Version.v1_19_80.atMost v = true
  · rw [if_pos hv, if_pos (Version.atMost_trans hv h)]
    exact List.Subset.refl _
  · rw [if_neg hv]
    split
    · exact List.subset_append_left ..
    · exact List.Subset.refl _

end Grammar

namespace Rule

/-- Where data values or block states are wanted, block states are read as where they alone are. -/
theorem follows_dataOrStates {next : Rule}
    (h : Step.Follows (Event.IsKept steady) ((dataOrStates.andThen next).run env)
      ((dataOrStates.andThen next).run env')) :
    Step.Follows (Event.IsKept steady) ((dataOrStates.andThen next).run env)
      ((statesOnly.andThen next).run env') := by
  intro c hc
  have hsame := h c hc
  have hold (env : Env) : (dataOrStates.andThen next).run env c =
      if Look.number.holds c = true then
        ((argument .blockData).andThen next).run env c
      else if (Look.char '[').holds c = true then (blockStates.andThen next).run env c
      else (Step.sweep .expectedStatesOrData c).andThen .halt := rfl
  have hnew : (statesOnly.andThen next).run env' c =
      if (Look.char '[').holds c = true then (blockStates.andThen next).run env' c
      else _ := rfl
  rw [hold] at hc
  by_cases hn : Look.number.holds c = true
  · rw [if_pos hn] at hc
    obtain ⟨hkind, hwarning⟩ := Step.Only.kept_argument (a := .blockData) trivial hc
    exact absurd (Argument.read_blockData c) (not_or.mpr ⟨hkind, hwarning⟩)
  rw [if_neg hn] at hc
  by_cases hs : (Look.char '[').holds c = true
  · rw [hnew, if_pos hs]
    rwa [hold, if_neg hn, if_pos hs] at hsame
  · rw [if_neg hs] at hc
    exact absurd hc (Step.not_only_error c.ahead_toLineEnd)

/-- The answer of a newer version leads to what that of an older one leads to. -/
theorem Asked.follows {next : Dialect → Rule} (hv : v.atMost v' = true) (ha : Asked next)
    (hd : env.dialect = Grammar.dialect v) (hd' : env'.dialect = Grammar.dialect v')
    (h : ∀ d, Step.Follows (Event.IsKept steady) ((next d).run env) ((next d).run env')) :
    Step.Follows (Event.IsKept steady) ((next env.dialect).run env)
      ((next env'.dialect).run env') := by
  rw [hd, hd']
  cases ha with
  | blockSuffix next =>
    have hsame (suffix : BlockSuffix) := h ⟨some suffix, []⟩
    simp only [Grammar.blockSuffix_dialect]
    by_cases hold : Version.v1_19_70.atMost v = true
    · rw [if_pos hold, if_pos (Version.atMost_trans hold hv)]
      exact hsame .states
    · rw [if_neg hold]
      split
      · exact follows_dataOrStates (hsame .dataOrStates)
      · exact hsame .dataOrStates
  | selectorOption next =>
    intro c hc
    obtain ⟨hkind, -⟩ := Step.Only.kept_argument (a := .selectorOption _) trivial hc
    have hread := (Argument.read_selectorOption (Grammar.selectorOptions_subset hv) c).resolve_left
      hkind
    rw [← h (Grammar.dialect v) c hc]
    simp only [run, Step.argument, hread]
    congr 1
    funext d
    cases ((Argument.selectorOption (Grammar.dialect v).selectorOptions).read c).answer <;> rfl

end Rule

/-! ## Commands -/

/-- Newer versions have all commands of older ones, with the same rules except for `execute`. -/
theorem Grammar.command?_newer {name : String} {rule : Rule} (hv : v.atMost v' = true)
    (h : command? name v = some rule)
    (hexec : name = "execute" →
      (Version.v1_19_50.atMost v = true ∨ Version.v1_19_50.atMost v' = false)) :
    command? name v' = some rule := by
  obtain ⟨rules, hl, hr⟩ := Option.bind_eq_some_iff.mp h
  rw [command?, hl]
  change rules.resolve? v' = some rule
  rcases List.mem_append.mp (Rule.mem_of_lookup hl) with hsteady | hnew
  · obtain ⟨⟨name', rule'⟩, -, heq⟩ := List.mem_map.mp hsteady
    obtain ⟨-, rfl⟩ := Prod.mk.inj heq
    rwa [Versioned.resolve?_always] at hr ⊢
  · simp only [List.mem_cons, List.not_mem_nil, or_false] at hnew
    rcases hnew with heq | heq
    · obtain ⟨rfl, rfl⟩ := Prod.mk.inj heq
      rw [Versioned.resolve?_insert rfl] at hr ⊢
      rwa [Version.atMost_eq hv (hexec rfl)]
    · obtain ⟨-, rfl⟩ := Prod.mk.inj heq
      rw [Versioned.resolve?_since] at hr ⊢
      split at hr
      · next hold => rwa [if_pos (Version.atMost_trans hold hv)]
      · simp at hr

end BedrockCommand

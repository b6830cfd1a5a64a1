import BedrockCommand.Proofs.Grammar.Upgrade
import BedrockCommand.Proofs.Tokenize.Termination
/-!
A newer version reads what an older one reads without an error in the same way, apart from data
values of blocks and from `execute`.
-/
namespace BedrockCommand

variable {steady : Prop} {v v' : Version}

namespace Command

variable {f g : Cursor → Step}

section

variable (hv : v.atMost v' = true)
  (hs : steady → Version.v1_19_50.atMost v = true ∨ Version.v1_19_50.atMost v' = false)
include hv hs

theorem follows_newer_body (hn : Step.Follows (Event.IsKept steady) f g) :
    Step.Follows (Event.IsKept steady) (body v f) (body v' g) := by
  intro c hc
  unfold body at hc ⊢
  split at hc
  · exact absurd hc (Step.not_only_error c.ahead_toLineEnd)
  next typed d hw =>
  simp only at hc ⊢
  split at hc
  · exact absurd hc (Step.not_only_error c.ahead_toLineEnd)
  next rule hr =>
  have hkeyword := hc.left
  rw [Step.keyword_ahead (Reader.ahead_word hw)] at hkeyword
  have hexec : Grammar.canonicalName typed = "execute" → steady := fun hname =>
    (hkeyword _ (List.mem_cons_of_mem _ (List.mem_cons_self ..))).2 rfl (congrArg _ hname)
  rw [Grammar.command?_newer hv hr fun hname => hs (hexec hname)]
  exact Step.andThen_congr_right (Rule.follows_run (fun _ => hn)
    (fun _ ha hd => ha.follows hv rfl rfl hd) (Rule.composed_command? hr).regular) hc

theorem follows_newer (depth : Nat) :
    Step.Follows (Event.IsKept steady) (read v depth) (read v' depth) := by
  induction depth with
  | zero => exact follows_closeCommand (follows_newer_body hv hs (.refl _))
  | succ depth ih => exact follows_closeCommand (follows_newer_body hv hs ih)

end

end Command

section

variable (hv : v.atMost v' = true)
  (hs : steady → Version.v1_19_50.atMost v = true ∨ Version.v1_19_50.atMost v' = false)
include hv hs

theorem follows_readLine : Step.Follows (Event.IsKept steady) (readLine v) (readLine v') := by
  have hline : Step.Follows (Event.IsKept steady)
      (fun c => if c.atEnd then .done c else if c.isAt '#' then readComment c
        else if c.isAt '\n' then .done c.advance else Command.read v maxNesting c)
      (fun c => if c.atEnd then .done c else if c.isAt '#' then readComment c
        else if c.isAt '\n' then .done c.advance else Command.read v' maxNesting c) :=
    .ite _ (.refl _) (.ite _ (.refl _) (.ite _ (.refl _) (Command.follows_newer hv hs maxNesting)))
  exact fun c => hline c.skipSpaces

theorem follows_readLines (fuel : Nat) :
    Step.Follows (Event.IsKept steady) (readLines v fuel) (readLines v' fuel) := by
  induction fuel with
  | zero => exact .refl _
  | succ fuel ih => exact .ite _ (.refl _) ((follows_readLine hv hs).andThen ih)

end

/-- A text without errors and without data values of blocks stays as it is in newer versions. The
exception is `execute`, if it becomes a chain of clauses between the two versions. -/
theorem tokenize_newer {text : String} {start : Position} {result : Tokenized}
    (hv : v.atMost v' = true) (h : tokenize text start v = .ok result)
    (hclean : result.hasErrors = false) (hdata : ∀ w ∈ result.warnings, w.kind ≠ .blockData)
    (hexecute : Version.v1_19_50.atMost v = true ∨ Version.v1_19_50.atMost v' = false ∨
      ∀ t ∈ result.tokens, t.kind = .command → t.value ≠ .command "execute") :
    tokenize text start v' = .ok result := by
  rw [tokenize_eq] at h
  obtain rfl := Except.ok.inj h
  have hkept : (readText text start v).Only (Event.IsKept
      (Version.v1_19_50.atMost v = true ∨ Version.v1_19_50.atMost v' = false)) := by
    intro e he
    cases e with
    | token t =>
      have ht : t ∈ (Tokenized.ofEvents (readText text start v).events).tokens :=
        List.mem_filterMap.mpr ⟨_, he, rfl⟩
      refine ⟨?_, fun hk hx => ?_⟩
      · simpa [Token.isError] using List.any_eq_false.mp hclean t ht
      · rcases hexecute with hold | hnew | hnone
        · exact .inl hold
        · exact .inr hnew
        · exact absurd hx (hnone t ht hk)
    | warning w => exact hdata w (List.mem_filterMap.mpr ⟨_, he, rfl⟩)
    | notice | json => trivial
  have hsame : readText text start v' = readText text start v :=
    follows_readLines hv id _ _ hkept
  rw [tokenize_eq, hsame]

/-- Block states are read in the oldest version as they are in the latest. -/
theorem tokenize_newer_blockStates :
    tokenize "testforblock ~ ~ ~ stone [\"a\":true]" ⟨0, 0⟩ .latest = .ok
      ⟨[⟨.command, .command "testforblock", ⟨⟨0, 0⟩, ⟨0, 13⟩⟩⟩,
        ⟨.position, .none, ⟨⟨0, 13⟩, ⟨0, 15⟩⟩⟩, ⟨.position, .none, ⟨⟨0, 15⟩, ⟨0, 17⟩⟩⟩,
        ⟨.position, .none, ⟨⟨0, 17⟩, ⟨0, 19⟩⟩⟩, ⟨.string, .none, ⟨⟨0, 19⟩, ⟨0, 25⟩⟩⟩,
        ⟨.option, .none, ⟨⟨0, 26⟩, ⟨0, 29⟩⟩⟩, ⟨.boolean, .boolean true, ⟨⟨0, 30⟩, ⟨0, 34⟩⟩⟩],
      [], [.commandRead ⟨⟨0, 0⟩, ⟨0, 13⟩⟩ "testforblock" "testforblock"]⟩ :=
  tokenize_newer (v := .oldest) (by decide) (by rfl) (by decide) (by decide)
    (.inr (.inr (by decide)))

end BedrockCommand

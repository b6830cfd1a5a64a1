import BedrockCommand.Proofs.Grammar.Commands
import BedrockCommand.Proofs.Rule.Orderly
/-!
The rules of all commands are orderly. Only one command takes what is left of its line even if this
is nothing.
-/
namespace BedrockCommand.Rule

namespace Orderly

variable {allowed : Argument → Bool} {nests : Prop} {flush : Bool}

theorem argument {a : Argument} (ha : allowed a = true) (hs : a.takesSpaces = true) :
    (argument a).Orderly allowed nests flush :=
  ⟨ha, fun _ => hs⟩

/-! ## JSON -/

theorem jsonConstant {names : List String} (h : names.all (!·.isEmpty) = true) :
    (jsonConstant names).Orderly Argument.isJson nests flush := by
  induction names with
  | nil => trivial
  | cons w names ih =>
    obtain ⟨hw, hnames⟩ := Bool.and_eq_true_iff.mp (List.all_cons ▸ h)
    exact ⟨by simp, by simp, ⟨hw, fun _ => rfl⟩, ih hnames⟩

theorem jsonValueWith (dialect : JsonDialect) {array object : Rule}
    (ha : array.Orderly Argument.isJson nests flush)
    (ho : object.Orderly Argument.isJson nests flush) :
    (jsonValueWith dialect array object).Orderly Argument.isJson nests flush :=
  ⟨by simp, by decide, argument rfl rfl, by simp, by decide, argument rfl rfl, by simp, by decide,
    ha, by simp, by decide, ho, jsonConstant (by cases dialect <;> decide)⟩

theorem jsonArray {item : Rule} (h : item.Orderly Argument.isJson nests true) :
    (jsonArray item).Orderly Argument.isJson nests flush :=
  ⟨h, fun _ => rfl⟩

theorem jsonObject {item : Rule} (h : item.Orderly Argument.isJson nests true) :
    (jsonObject item).Orderly Argument.isJson nests flush :=
  ⟨⟨rfl, fun _ => ⟨by decide, h⟩⟩, fun _ => rfl⟩

theorem jsonValue (dialect : JsonDialect) (depth : Nat) :
    (jsonValue dialect depth).Orderly Argument.isJson nests flush := by
  induction depth generalizing flush with
  | zero => exact jsonValueWith dialect trivial trivial
  | succ depth ih => exact jsonValueWith dialect (jsonArray ih) (jsonObject ih)

theorem jsonText (dialect : JsonDialect) (shape : JsonShape) :
    (jsonText dialect shape).Orderly Argument.isJson nests flush := by
  have hvalue : (Rule.jsonValue dialect maxNesting).Orderly Argument.isJson nests true :=
    jsonValue _ _
  cases shape with
  | any => exact hvalue
  | array => exact @jsonArray nests true _ hvalue
  | object => exact @jsonObject nests true _ hvalue

theorem json (shape : JsonShape) : (json shape).Orderly allowed nests flush :=
  ⟨jsonText .strict shape, rfl⟩

/-! ## Blocks and targets -/

section

variable (hall : ∀ a : Argument, a.mayBeEmpty = false → allowed a = true)
include hall

theorem inner {a : Argument} (he : a.mayBeEmpty = false) (hs : a.takesSpaces = true) :
    (Rule.argument a).Orderly allowed nests flush :=
  argument (hall a he) hs

theorem blockStates : blockStates.Orderly allowed nests flush :=
  ⟨⟨hall _ rfl, fun _ => ⟨by decide, by simp, by decide, inner hall rfl rfl, by simp, by decide,
    inner hall rfl rfl, inner hall rfl rfl⟩⟩, fun _ => rfl⟩

theorem blockSuffix : blockSuffix.Orderly allowed nests true := by
  intro d
  dsimp only
  split
  · rfl
  · exact ⟨by simp, by decide, inner hall rfl rfl, by simp, by decide, blockStates hall, trivial⟩
  · exact ⟨by simp, by decide, blockStates hall, by simp, by decide, inner hall rfl rfl, rfl⟩

theorem hasitemObject : hasitemObject.Orderly allowed nests flush := by
  refine ⟨⟨hall _ rfl, fun key => ?_⟩, fun entries => ?_⟩
  · dsimp only
    split
    · rfl
    all_goals exact ⟨by decide, inner hall rfl rfl⟩
  · dsimp only
    split <;> rfl

theorem selectorValue (name : String) : (selectorValue name).Orderly allowed nests true := by
  have harg {a : Argument} (he : a.mayBeEmpty = false) (hs : a.takesSpaces = true) :
      (Rule.argument a).Orderly allowed nests true :=
    inner hall he hs
  have hscores : scores.Orderly allowed nests true :=
    ⟨append (harg rfl rfl) ⟨by decide, harg rfl rfl⟩, fun _ => rfl⟩
  have hpermission : haspermission.Orderly allowed nests true :=
    ⟨append (harg rfl rfl) ⟨by decide, harg rfl rfl⟩, fun _ => rfl⟩
  have hhasitem : hasitem.Orderly allowed nests true :=
    ⟨by simp, by decide, ⟨hasitemObject hall, fun _ => rfl⟩, hasitemObject hall⟩
  have htag : selectorTag.Orderly allowed nests true :=
    ⟨by simp, by decide, harg rfl rfl, rfl⟩
  have hmode : gameMode.Orderly allowed nests true :=
    ⟨by simp, by decide, harg rfl rfl, harg rfl rfl⟩
  have hvalues : (selectorValues.map Prod.snd).Forall (Orderly allowed nests · true) :=
    ⟨harg rfl rfl, harg rfl rfl, harg rfl rfl, harg rfl rfl, harg rfl rfl, harg rfl rfl,
      harg rfl rfl, harg rfl rfl, hscores, htag, harg rfl rfl, harg rfl rfl, harg rfl rfl,
      harg rfl rfl, harg rfl rfl, harg rfl rfl, harg rfl rfl, hhasitem, harg rfl rfl, harg rfl rfl,
      hmode, harg rfl rfl, hpermission⟩
  unfold Rule.selectorValue
  cases hl : selectorValues.lookup name with
  | none => trivial
  | some r =>
    exact List.forall_iff_forall_mem.mp hvalues _ (List.mem_map_of_mem (mem_of_lookup hl))

theorem target : target.Orderly allowed nests flush :=
  ⟨by simp, by decide, ⟨hall _ rfl, fun _ => ⟨by simp, by decide,
    ⟨fun _ => ⟨hall _ rfl, fun name => ⟨by decide, selectorValue hall name⟩⟩, fun _ => rfl⟩, rfl⟩⟩,
    inner hall rfl rfl⟩

end

end Orderly

section

variable {allowed : Argument → Bool} {nests : Prop}
  (hall : ∀ a : Argument, a.mayBeEmpty = false → allowed a = true)
include hall

theorem Arranged.orderly {p : Place} {r : Rule} (h : Arranged p r) :
    r.Orderly allowed nests true := by
  induction h with
  | done => rfl
  | read _ hi _ ih =>
    obtain ⟨-, -, he, hs⟩ := inner_of_isInner hi
    exact ⟨hall _ he, fun x => hs.symm ▸ ih x⟩
  | spacedRead _ _ _ he _ ih => exact ⟨hall _ he, ih⟩
  | line => exact ⟨hall _ rfl, fun _ => rfl⟩
  | spaces _ ih => exact ih
  | look hq _ _ ihy ihn => exact ⟨fun _ => rfl, Look.isPlain_ne_space hq, ihy, ihn⟩
  | compare _ _ ihy ihn => exact ⟨by simp, by decide, ⟨hall _ rfl, ihy⟩, ihn⟩
  | append _ _ ihr ihs => exact ihr.append ihs
  | target => exact .target hall
  | blockSuffix => exact .blockSuffix hall
  | json shape => exact .json shape

theorem orderly_executeAt (hn : nests) : executeAt.Orderly allowed nests true :=
  .append (Arranged.orderly hall (p := .inside) .executeAtHead) ⟨hn, rfl⟩

theorem orderly_executeChain (hn : nests) : executeChain.Orderly allowed nests true := by
  refine ⟨rfl, hall _ rfl, fun w => ?_, fun last => ?_⟩
  · rcases executeClause_cases w with hw | ⟨-, hw⟩
    · exact hw.orderly hall
    · beta_reduce
      rw [hw]
      exact ⟨hn, rfl⟩
  · cases last with
    | none => rfl
    | some w =>
      dsimp only
      split <;> rfl

/-- The rule of a command of a version is orderly, and all its arguments have text, or it takes
what is left of the line. -/
theorem orderly_command? {version : Version} {name : String} {rule : Rule}
    (h : Grammar.command? name version = some rule) :
    rule.Orderly allowed True true ∨ (name = "wsserver" ∧ rule = .wsserver) := by
  rcases command?_cases h with h | h | ⟨-, rfl | rfl⟩
  · exact .inl (h.orderly hall)
  · exact .inr h
  · exact .inl (orderly_executeAt hall trivial)
  · exact .inl (orderly_executeChain hall trivial)

end

end BedrockCommand.Rule

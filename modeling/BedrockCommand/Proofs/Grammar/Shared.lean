import BedrockCommand.Proofs.Rule.WellFormed
import BedrockCommand.Proofs.Version.Versioned
/-!
The rules that commands share are well-formed: words and positions, JSON, blocks and targets.
-/
namespace BedrockCommand.Rule

variable {d : Dialect} {known : Option Look} {version : Version}

theorem WellFormed.identifier : identifier.WellFormed d known := .argument trivial

theorem WellFormed.text : text.WellFormed d known := .argument trivial

theorem WellFormed.objective : objective.WellFormed d known := .argument trivial

theorem WellFormed.anyInteger : anyInteger.WellFormed d known := .argument trivial

theorem WellFormed.integerFrom (least : Int) : (integerFrom least).WellFormed d known :=
  .argument trivial

theorem WellFormed.anyNumber : anyNumber.WellFormed d known := .argument trivial

theorem WellFormed.numberFrom (least : Binary64) : (numberFrom least).WellFormed d known :=
  .argument trivial

theorem WellFormed.range : range.WellFormed d known := .argument trivial

theorem WellFormed.gameMode : gameMode.WellFormed d known :=
  .look rfl (.argument trivial) (.oneOf _)

theorem WellFormed.jsonConstant (names : List String) :
    (jsonConstant names).WellFormed d known := by
  induction names generalizing known with
  | nil => trivial
  | cons w names ih => exact .look rfl ⟨rfl, fun _ _ => trivial⟩ ih

theorem WellFormed.jsonArray {item : Rule} (h : item.WellFormed d none) :
    (jsonArray item).WellFormed d known :=
  ⟨h, fun _ => trivial⟩

theorem WellFormed.jsonObject {item : Rule} (h : item.WellFormed d none) :
    (jsonObject item).WellFormed d known :=
  ⟨⟨trivial, fun _ _ => ⟨by simp [isStructural, punctuation], h⟩⟩, fun _ => trivial⟩

theorem WellFormed.jsonValueWith (dialect : JsonDialect) {array object : Rule}
    (ha : array.WellFormed d (some (.char '['))) (ho : object.WellFormed d (some (.char '\x7b'))) :
    (jsonValueWith dialect array object).WellFormed d known :=
  .look rfl (.argument trivial) <| .look rfl (.argument trivial) <| .look rfl ha <|
    .look rfl ho (.jsonConstant _)

theorem WellFormed.jsonValue (dialect : JsonDialect) (depth : Nat) :
    (jsonValue dialect depth).WellFormed d known := by
  induction depth generalizing known with
  | zero => exact .jsonValueWith dialect trivial trivial
  | succ depth ih => exact .jsonValueWith dialect (.jsonArray ih) (.jsonObject ih)

theorem WellFormed.jsonText (dialect : JsonDialect) (shape : JsonShape) :
    (jsonText dialect shape).WellFormed d known := by
  have hvalue : (Rule.jsonValue dialect maxNesting).WellFormed d none := .jsonValue _ _
  cases shape with
  | any => exact hvalue
  | object => exact (WellFormed.jsonObject hvalue : WellFormed d _ none)
  | array => exact (WellFormed.jsonArray hvalue : WellFormed d _ none)

theorem WellFormed.json (shape : JsonShape) : (json shape).WellFormed d known :=
  ⟨.jsonText .strict shape, trivial⟩

theorem WellFormed.stateValue : stateValue.WellFormed d known :=
  .look rfl (.argument trivial) (.look rfl .anyInteger (.argument trivial))

theorem WellFormed.blockStates : blockStates.WellFormed d known :=
  ⟨⟨trivial, fun _ _ => ⟨by simp [isStructural, punctuation], .stateValue⟩⟩, fun _ => trivial⟩

theorem WellFormed.blockSuffix : blockSuffix.WellFormed d known := by
  refine .ask ?_
  cases d.blockSuffix with
  | none => trivial
  | some suffix =>
    cases suffix with
    | dataOrStates => exact .look rfl (.argument trivial) (.look rfl .blockStates trivial)
    | states => exact .look rfl .blockStates (.look rfl (.argument trivial) trivial)

theorem isStructural_equals : isStructural '=' := by
  simp [isStructural, punctuation]

theorem WellFormed.hasitemObject : hasitemObject.WellFormed d known := by
  refine ⟨⟨trivial, fun key _ => ?_⟩, fun entries => ?_⟩
  · dsimp only
    split
    · trivial
    · exact ⟨isStructural_equals, .identifier⟩
    · exact ⟨isStructural_equals, .argument trivial⟩
    · exact ⟨isStructural_equals, .argument trivial⟩
    · exact ⟨isStructural_equals, .range⟩
  · dsimp only
    split <;> trivial

theorem WellFormed.hasitem : hasitem.WellFormed d known :=
  .look rfl ⟨.hasitemObject, fun _ => trivial⟩ .hasitemObject

theorem WellFormed.scores : scores.WellFormed d known :=
  ⟨.append .objective ⟨isStructural_equals, .range⟩, fun _ => trivial⟩

theorem WellFormed.haspermission : haspermission.WellFormed d known :=
  ⟨.append (.oneOf _) ⟨isStructural_equals, .argument trivial⟩, fun _ => trivial⟩

theorem WellFormed.selectorTag : selectorTag.WellFormed d known :=
  .negation (.look rfl (.argument trivial) trivial)

/-- The names that a version gives to selector options all have a rule for their value. -/
theorem mem_selectorValues {version : Version} {name : String}
    (h : name ∈ (Grammar.dialect version).selectorOptions) :
    name ∈ selectorValues.map Prod.fst := by
  have hforms : ∀ form ∈ Grammar.selectorOptions.forms, ∀ name ∈ form.2,
      name ∈ selectorValues.map Prod.fst := by
    decide
  have hold : ∀ name ∈ Grammar.oldSelectorOptions, name ∈ selectorValues.map Prod.fst := by
    decide
  unfold Grammar.dialect at h
  cases hr : Grammar.selectorOptions.resolve? version with
  | none => exact hold name (by simpa [hr] using h)
  | some options =>
    obtain ⟨t, -, hf⟩ := Versioned.mem_of_resolve? hr
    exact hforms _ hf name (by simpa [hr] using h)

theorem exists_selectorValue {name : String} (h : name ∈ selectorValues.map Prod.fst) :
    ∃ r, (name, r) ∈ selectorValues ∧ selectorValue name = r := by
  unfold selectorValue
  cases hl : selectorValues.lookup name with
  | none =>
    -- A name without a rule is no name of the table.
    obtain ⟨entry, hentry, rfl⟩ := List.mem_map.mp h
    simpa using List.lookup_eq_none_iff.mp hl entry hentry
  | some r => exact ⟨r, mem_of_lookup hl, rfl⟩

theorem WellFormed.selectorValue {name : String} (h : name ∈ selectorValues.map Prod.fst) :
    (selectorValue name).WellFormed d known := by
  have hvalues : AllWellFormed d (selectorValues.map Prod.snd) :=
    ⟨.argument trivial, .argument trivial, .argument trivial, .anyNumber, .anyNumber, .anyNumber,
      .numberFrom 0, .numberFrom 0, .scores, .selectorTag, .negation .text, .negation .identifier,
      .negation .text, .anyNumber, .anyNumber, .anyNumber, .anyNumber, .hasitem, .integerFrom 0,
      .integerFrom 0, .gameMode, .anyInteger, .haspermission, trivial⟩
  obtain ⟨r, hr, hvalue⟩ := exists_selectorValue h
  exact hvalue ▸ (hvalues.of_mem (List.mem_map_of_mem hr)).anywhere known

theorem WellFormed.target : target.WellFormed (Grammar.dialect version) known :=
  .look rfl ⟨rfl, fun _ _ => .look rfl ⟨.ask ⟨trivial, fun _ hname =>
    ⟨isStructural_equals, .selectorValue (mem_selectorValues hname)⟩⟩, fun _ => trivial⟩ trivial⟩
    (.argument trivial)

end BedrockCommand.Rule

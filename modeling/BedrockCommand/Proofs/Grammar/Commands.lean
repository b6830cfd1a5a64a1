import BedrockCommand.Proofs.Grammar.Composed
/-!
How the rules of all commands are composed and arranged. Only `execute` holds other commands.
-/
namespace BedrockCommand.Rule

open Grammar

variable {nests : Prop} {p : Place}

/-! ## Players -/

theorem Arranged.optionalTarget : Arranged p optionalTarget :=
  .optional .target

theorem Arranged.ability : Arranged p ability :=
  .append .target (.optional (.append (.oneOf rfl) .flag))

theorem Arranged.camerashake : Arranged p camerashake :=
  .cases rfl ⟨
    .append .target (.chain ⟨.numberBetween 0 4, .anyNumber, .oneOf rfl⟩),
    .optional .target⟩

theorem Arranged.clear : Arranged p clear :=
  .chain ⟨.target, .identifier, .integerFrom (-1), .integerFrom (-1)⟩

theorem Arranged.damage : Arranged p damage :=
  .append (.append .target (.integerFrom 0)) (.chain ⟨.word, .append (.oneOf rfl) .target⟩)

theorem Arranged.effect : Arranged p effect :=
  .append .target (.read trivial rfl fun
    | some _ => .done
    | none => .chain ⟨.integerFrom 0, .integerBetween 0 255, .flag⟩)

theorem Arranged.enchant : Arranged p enchant :=
  .append (.append .target (.look rfl .anyInteger .identifier)) (.optional .anyInteger)

theorem Arranged.setGameMode : Arranged p setGameMode :=
  .append .gameMode (.optional .target)

theorem Arranged.give : Arranged .last give :=
  .append (.append .target .identifier) (.chainCons (.integerBetween 1 32767)
    (.chainCons (.integerBetween 0 32767) (.optional (.json .object))))

theorem Arranged.inputpermission : Arranged p inputpermission := by
  refine .read trivial rfl fun mode => .append (.append .target (.oneOf rfl)) ?_
  split
  · exact .permissionState
  · exact .optional .permissionState

theorem Arranged.kick : Arranged .last kick :=
  .append .target (.optional .message)

theorem Arranged.spawnpoint : Arranged p spawnpoint :=
  .chain ⟨.target, .position⟩

theorem Arranged.xp : Arranged p xp :=
  .append (.argument trivial rfl) (.optional .target)

/-! ## Entities -/

theorem Arranged.event : Arranged p event :=
  .append (.append (.oneOf rfl) .target) .text

theorem Arranged.containerSlot : Arranged p containerSlot :=
  .cases rfl ⟨.append .position (.oneOf rfl), .append .target .word⟩

theorem Arranged.loot : Arranged p loot :=
  have hreplace : Arranged .inside (.look .number (.integerFrom 1) .done) :=
    .look rfl (.integerFrom 1) .done
  .append
    (.append
      (.cases rfl ⟨.position, .target, .position,
        .append (.append .containerSlot .anyInteger) hreplace⟩)
      (.cases rfl ⟨.target, .text⟩))
    (.optional (.argument trivial rfl))

theorem Arranged.playanimation : Arranged p playanimation :=
  .append (.append .target .text) (.chain ⟨.text, .anyNumber, .text, .text⟩)

theorem Arranged.replaceitem : Arranged .last replaceitem :=
  .append
    (.append (.append .containerSlot .anyInteger) (.read trivial rfl fun
      | some _ => .identifier
      | none => .done))
    (.chainCons (.integerBetween 1 64)
      (.chainCons (.integerBetween 0 32767) (.optional (.json .object))))

theorem Arranged.ride : Arranged p ride :=
  .append .target (.cases rfl ⟨
    .append .target (.chain ⟨.oneOf rfl, .oneOf rfl⟩),
    .done,
    .done,
    .append .identifier (.chain ⟨.spawnEvent, .text⟩),
    .append .identifier (.chain ⟨.oneOf rfl, .spawnEvent, .text⟩)⟩)

theorem Arranged.spreadplayers : Arranged p spreadplayers :=
  .append (.coordinates 2 []) (.read trivial rfl fun _ => .append (.argument trivial rfl) .target)

theorem Arranged.summon : Arranged p summon :=
  .append .identifier (.optional (.look rfl
    (.append .position (.chain ⟨.spawnEvent, .text⟩))
    (.append .text (.optional .position))))

theorem Arranged.tag : Arranged p tag :=
  .append .starOrTarget (.cases rfl ⟨.argument trivial rfl, .argument trivial rfl, .done⟩)

theorem Arranged.teleportTail : Arranged p teleportTail :=
  .look rfl (.append .angle (.optional (.append .angle (.optional .flag)))) (.read trivial rfl fun
    | some _ => .append (.look rfl .position .target) (.optional .flag)
    | none => .done)

theorem Arranged.teleportToPosition : Arranged p teleportToPosition :=
  .append .position (.optional .teleportTail)

theorem Arranged.teleport : Arranged p teleport :=
  .look rfl .teleportToPosition
    (.append .target (.optional
      (.look rfl .teleportToPosition (.append .target (.optional .flag)))))

/-! ## Messages -/

theorem Arranged.dialogue : Arranged p dialogue :=
  .cases rfl ⟨.append (.append .target .text) (.optional .target),
    .append (.append .target .target) (.optional .text)⟩

theorem Arranged.help : Arranged p help :=
  .optional (.look rfl .anyInteger .word)

theorem Arranged.musicTrack : Arranged p musicTrack :=
  .append .text (.chain ⟨.numberBetween 0 1, .numberBetween 0 10, .oneOf rfl⟩)

theorem Arranged.music : Arranged p music :=
  .cases rfl ⟨.musicTrack, .musicTrack, .optional (.numberBetween 0 10), .numberBetween 0 1⟩

theorem Arranged.playsound : Arranged p playsound :=
  .append .text
    (.chain ⟨.target, .position, .numberFrom 0, .numberBetween 0 256, .numberFrom 0⟩)

theorem Arranged.stopsound : Arranged p stopsound :=
  .append .target (.optional .text)

theorem Arranged.tell : Arranged .last tell :=
  .append .target .message

theorem Arranged.tellraw : Arranged .last tellraw :=
  .append .target (.json .object)

theorem Arranged.titleWith {content : Rule} (h : Arranged p content) :
    Arranged p (titleWith content) := by
  refine .append .target (.cases ?_ ⟨.done, .done, h, h, h,
    .append (.append .anyInteger .anyInteger) .anyInteger⟩)
  simp only [List.map_cons, List.map_nil]
  rfl

theorem Arranged.whitelist : Arranged p whitelist :=
  .cases rfl ⟨.target, .done, .done, .done, .done, .target⟩

/-! ## Scores -/

theorem Arranged.objectives : Arranged p objectives := by
  refine .cases rfl ⟨.append (.append .objective (.oneOf rfl)) (.optional .text), .done,
    .objective, .read trivial rfl fun slot => ?_⟩
  split
  · exact .optional .objective
  · exact .chain ⟨.objective, .oneOf rfl⟩

theorem Arranged.scoreChange : Arranged p scoreChange :=
  .append (.append .starOrTarget .objective) .anyInteger

theorem Arranged.scoreOperation : Arranged p scoreOperation :=
  .append (.append .starOrTarget .objective)
    (.spacedRead trivial rfl rfl rfl fun _ => .append .starOrTarget .objective)

theorem Arranged.scoreRandom : Arranged p scoreRandom :=
  .append (.append .starOrTarget .objective) (.read trivial rfl fun _ => .argument trivial rfl)

theorem Arranged.scoreTest : Arranged p scoreTest :=
  .append (.append .starOrTarget .objective)
    (.read trivial rfl fun _ => .optional (.argument trivial rfl))

theorem Arranged.players : Arranged p players :=
  .cases rfl ⟨.scoreChange, .scoreChange, .scoreChange, .optional .starOrTarget, .scoreOperation,
    .scoreRandom, .append .starOrTarget (.optional .objective), .scoreTest⟩

theorem Arranged.scoreboard : Arranged p scoreboard :=
  .cases rfl ⟨.objectives, .players⟩

/-! ## The world -/

theorem Arranged.alwaysday : Arranged p alwaysday :=
  .optional .flag

theorem Arranged.clone : Arranged p clone :=
  .append (.append (.append .position .position) .position) (.optional (.cases rfl ⟨
    .optional (.oneOf rfl), .optional (.oneOf rfl), .append (.oneOf rfl) .block⟩))

theorem Arranged.difficulty : Arranged p difficulty :=
  .look rfl (.argument trivial rfl) (.oneOf rfl)

theorem Arranged.fill : Arranged p fill :=
  .append (.append (.append .position .position) .identifier) (.chain ⟨.blockSuffix,
    .cases rfl ⟨.done, .done, .done, .done, .chain ⟨.identifier, .blockSuffix⟩⟩⟩)

theorem Arranged.fog : Arranged p fog :=
  .append (.append .target (.cases rfl ⟨.identifier, .done, .done⟩)) .text

theorem Arranged.gamerule : Arranged p gamerule :=
  .chain ⟨.word, .look rfl .anyInteger .flag⟩

theorem Arranged.locate : Arranged p locate :=
  .cases rfl ⟨.identifier, .append .identifier (.optional .flag)⟩

theorem Arranged.mobevent : Arranged p mobevent :=
  .append .identifier (.optional .flag)

theorem Arranged.particle : Arranged p particle :=
  .append .identifier (.optional .position)

theorem Arranged.schedule : Arranged .last schedule :=
  .append
    (.append (.append (.oneOf rfl) (.oneOf rfl))
      (.look rfl (.append .position .position) (.cases rfl ⟨.circle, .text⟩)))
    .functionPath

theorem Arranged.setblock : Arranged p setblock :=
  .append (.append .position .identifier) (.chain ⟨.blockSuffix, .oneOf rfl⟩)

theorem Arranged.setworldspawn : Arranged p setworldspawn :=
  .optional .position

theorem Arranged.structureSaveTail : Arranged p structureSaveTail :=
  .read trivial rfl fun
    | some _ => .done
    | none => .chain ⟨.oneOf rfl, .flag⟩

theorem Arranged.structureLoadFlags : Arranged p structureLoadFlags :=
  .append .flag (.chain ⟨.numberBetween 0 1, .text⟩)

theorem Arranged.structureLoadTail : Arranged p structureLoadTail :=
  .read trivial rfl fun
    | some _ => .chain ⟨.numberFrom 0, .flag, .structureLoadFlags⟩
    | none => .optional .structureLoadFlags

theorem Arranged.structures : Arranged p structures :=
  .cases rfl ⟨.append (.append (.append .text .position) .position) (.optional .structureSaveTail),
    .append (.append .text .position)
      (.chain ⟨.oneOf rfl, .oneOf rfl, .structureLoadTail⟩),
    .text⟩

theorem Arranged.testforblock : Arranged p testforblock :=
  .append (.append .position .identifier) (.optional .blockSuffix)

theorem Arranged.testforblocks : Arranged p testforblocks :=
  .append (.append (.append .position .position) .position) (.optional (.oneOf rfl))

theorem Arranged.areaList : Arranged p areaList :=
  .optional (.oneOf rfl)

theorem Arranged.tickingarea : Arranged p tickingarea :=
  .cases rfl ⟨
    .append (.look rfl (.append .position .position) (.append (.oneOf rfl) .circle))
      (.chain ⟨.text, .flag⟩),
    .positionOrText, .done, .append .positionOrText (.optional .flag), .areaList⟩

theorem Arranged.time : Arranged p time :=
  .cases rfl ⟨.anyInteger, .oneOf rfl, .look rfl .anyInteger (.oneOf rfl)⟩

theorem Arranged.volumearea : Arranged p volumearea :=
  .cases rfl ⟨.append (.append (.append .text .position) .position) (.optional .text), .areaList,
    .positionOrText, .done⟩

theorem Arranged.weatherDuration : Arranged p weatherDuration :=
  .optional (.integerBetween 0 1000000)

theorem Arranged.weather : Arranged p weather :=
  .cases rfl ⟨.weatherDuration, .weatherDuration, .weatherDuration, .done⟩

/-! ## Execute -/

theorem Arranged.detect : Arranged p detect :=
  .append (.append (.oneOf rfl) .position) .block

/-- The older form of `execute`, up to the command. -/
theorem Arranged.executeAtHead : Arranged p
    (Rule.target ++ Rule.position ++ .look (.word "detect") Rule.detect .done) :=
  .append (.append .target .position) (.look rfl .detect .done)

theorem Composed.executeAt (h : nests) : Composed nests executeAt :=
  .append (Arranged.composed (p := .inside) .executeAtHead) (.nested h)

theorem Arranged.scoreCondition : Arranged p scoreCondition :=
  .append (.append .target .objective) (.compare
    (fun _ => .append .target .objective) (.append (.oneOf rfl) .range))

theorem Arranged.condition : Arranged p condition :=
  .cases rfl ⟨
    .append (.append .position .identifier)
      (.look rfl .blockSuffix (.look rfl .blockSuffix .done)),
    .append (.append (.append .position .position) .position) (.oneOf rfl),
    .target, .scoreCondition⟩

theorem Arranged.asTarget : Arranged p asTarget :=
  .append (.oneOf rfl) .target

theorem executeClauses_cases : executeClauses.Forall fun (w, r) =>
    Arranged .inside r ∨ w = "run" ∧ r = .nested .done :=
  ⟨.inl (.argument trivial rfl), .inl (.oneOf rfl), .inl .target, .inl .target,
    .inl (.look rfl .position (.append (.append (.oneOf rfl) .target) (.oneOf rfl))),
    .inl .identifier, .inl (.look rfl .position .asTarget),
    .inl (.look rfl (.append .angle .angle) .asTarget),
    .inr ⟨rfl, rfl⟩, .inl .condition, .inl .condition⟩

/-- Of the clauses of `execute`, `run` alone holds another command. -/
theorem executeClause_cases (w : String) :
    Arranged .inside ((executeClauses.lookup w).getD .done) ∨
      w = "run" ∧ (executeClauses.lookup w).getD .done = .nested .done := by
  cases hl : executeClauses.lookup w with
  | none => exact .inl .done
  | some r => exact List.forall_iff_forall_mem.mp executeClauses_cases _ (mem_of_lookup hl)

/-- What is done behind the last clause of `execute`. -/
theorem Composed.executeEnd (last : Option String) : Composed nests
    (match last with
    | none => .complain .expectedSubcommand .done
    | some w => if w ∈ finalClauses then .done else .complain .wrongExecuteEnd .done) := by
  cases last with
  | none => exact .complain rfl .done
  | some w =>
    dsimp only
    split
    · exact .done
    · exact .complain rfl .done

theorem Composed.executeClause (h : nests) (w : String) :
    Composed nests ((executeClauses.lookup w).getD .done) := by
  rcases executeClause_cases w with hw | ⟨-, hw⟩
  · exact hw.composed
  · exact hw ▸ .nested h

theorem Composed.executeChain (h : nests) : Composed nests executeChain :=
  .clauses rfl (.executeClause h) .executeEnd

/-! ## The table -/

/-- This command takes whatever is left of its line. -/
theorem Composed.wsserver : Composed nests wsserver :=
  .read trivial rfl fun _ => .done

/-- Of the commands that are the same in every version, only one takes whatever is left of its
line. -/
theorem steadyCommands_cases : steadyCommands.Forall fun (name, rule) =>
    Arranged .last rule ∨ name = "wsserver" ∧ rule = .wsserver :=
  ⟨.inl .ability, .inl .alwaysday, .inl .camerashake, .inl .clear, .inl .optionalTarget,
    .inl .clone, .inl .damage, .inl .target, .inl .dialogue, .inl .difficulty, .inl .effect,
    .inl .enchant, .inl .event, .inl .fill, .inl .fog, .inl .functionPath, .inl .setGameMode,
    .inl .gamerule, .inl .give, .inl .help, .inl .alwaysday, .inl .kick, .inl .optionalTarget,
    .inl .done, .inl .locate, .inl .loot, .inl .message, .inl .mobevent, .inl .music, .inl .target,
    .inl .particle, .inl .playanimation, .inl .playsound, .inl .replaceitem, .inl .ride,
    .inl (.oneOf rfl), .inl .message, .inl .schedule, .inl .scoreboard, .inl .done, .inl .setblock,
    .inl (.integerBetween 1 30), .inl .setworldspawn, .inl .spawnpoint, .inl .spreadplayers,
    .inl .done, .inl .stopsound, .inl .structures, .inl .summon, .inl .tag, .inl .teleport,
    .inl .tell, .inl .tellraw, .inl .target, .inl .testforblock, .inl .testforblocks,
    .inl .tickingarea, .inl .time, .inl (.titleWith .message), .inl (.titleWith (.json .object)),
    .inl .done, .inl .volumearea, .inl .weather, .inl .whitelist, .inl .done, .inr ⟨rfl, rfl⟩,
    .inl .xp⟩

/-- The rule of a command of a version: it holds no other commands and does not take whatever is
left of its line, or it is one of the two that do. -/
theorem command?_cases {version : Version} {name : String} {rule : Rule}
    (h : command? name version = some rule) :
    Arranged .last rule ∨ (name = "wsserver" ∧ rule = .wsserver) ∨
      name = "execute" ∧ (rule = .executeAt ∨ rule = .executeChain) := by
  obtain ⟨rules, hl, hr⟩ := Option.bind_eq_some_iff.mp h
  obtain ⟨t, -, hf⟩ := Versioned.mem_of_resolve? hr
  -- A command is the same in every version, or it is one of the two that are not.
  rcases List.mem_append.mp (mem_of_lookup hl) with hsteady | hnew
  · obtain ⟨⟨name', rule'⟩, hmem, heq⟩ := List.mem_map.mp hsteady
    obtain ⟨rfl, rfl⟩ := Prod.mk.inj heq
    obtain ⟨-, rfl⟩ := Prod.mk.inj (List.mem_singleton.mp hf)
    exact (List.forall_iff_forall_mem.mp steadyCommands_cases _ hmem).imp_right .inl
  · simp only [List.mem_cons, List.not_mem_nil, or_false] at hnew
    rcases hnew with heq | heq
    · obtain ⟨rfl, rfl⟩ := Prod.mk.inj heq
      rcases Versioned.mem_forms_insert.mp hf with heq | hf
      · obtain ⟨-, rfl⟩ := Prod.mk.inj heq
        exact .inr (.inr ⟨rfl, .inr rfl⟩)
      · obtain ⟨-, rfl⟩ := Prod.mk.inj (List.mem_singleton.mp hf)
        exact .inr (.inr ⟨rfl, .inl rfl⟩)
    · obtain ⟨-, rfl⟩ := Prod.mk.inj heq
      obtain ⟨-, rfl⟩ := Prod.mk.inj (List.mem_singleton.mp hf)
      exact .inl .inputpermission

/-- Every command of a version is composed, whether it holds others or not. -/
theorem composed_command? {version : Version} {name : String} {rule : Rule}
    (h : command? name version = some rule) : Composed True rule := by
  rcases command?_cases h with h | ⟨-, rfl⟩ | ⟨-, rfl | rfl⟩
  · exact h.composed
  · exact .wsserver
  · exact .executeAt trivial
  · exact .executeChain trivial

/-- Every command of a version has a well-formed rule. -/
theorem wellFormed_command? {version : Version} {name : String} {rule : Rule}
    (h : command? name version = some rule) :
    rule.WellFormed (dialect version) none :=
  (composed_command? h).wellFormed

end BedrockCommand.Rule

import BedrockCommand.Proofs.Grammar.Commands
import BedrockCommand.Proofs.Rule.Append
import BedrockCommand.Proofs.Rule.Final
import BedrockCommand.Proofs.Rule.Run
/-!
Where commands give up on their line. What may stand inside a command gives up itself when it gives
up on the line; what comes last in a command, and the command as a whole, has nothing behind it.
-/
namespace BedrockCommand

namespace Rule

namespace Halting

theorem argument {a : Argument} (ha : a.isLine = false) : (argument a).Halting :=
  ⟨ha, fun _ => trivial⟩

theorem jsonConstant (names : List String) : (jsonConstant names).Halting := by
  induction names with
  | nil => rfl
  | cons w names ih => exact ⟨⟨rfl, fun _ => trivial⟩, ih⟩

theorem jsonValueWith (dialect : JsonDialect) {array object : Rule} (ha : array.Halting)
    (ho : object.Halting) : (jsonValueWith dialect array object).Halting :=
  ⟨argument rfl, argument rfl, ha, ho, jsonConstant _⟩

theorem jsonValue (dialect : JsonDialect) (depth : Nat) : (jsonValue dialect depth).Halting := by
  induction depth with
  | zero => exact jsonValueWith dialect trivial trivial
  | succ depth ih =>
    exact jsonValueWith dialect ⟨ih, fun _ => trivial⟩ ⟨⟨rfl, fun _ => ih⟩, fun _ => trivial⟩

theorem jsonText (dialect : JsonDialect) (shape : JsonShape) :
    (jsonText dialect shape).Halting := by
  have hvalue : (Rule.jsonValue dialect maxNesting).Halting := jsonValue _ _
  cases shape with
  | any => exact hvalue
  | array => exact ⟨hvalue, fun _ => trivial⟩
  | object => exact ⟨⟨rfl, fun _ => hvalue⟩, fun _ => trivial⟩

theorem blockStates : blockStates.Halting :=
  ⟨⟨rfl, fun _ => ⟨argument rfl, argument rfl, argument rfl⟩⟩, fun _ => trivial⟩

theorem blockSuffix : blockSuffix.Halting := by
  intro d
  dsimp only
  split
  · trivial
  · exact ⟨argument rfl, blockStates, trivial⟩
  · exact ⟨blockStates, argument rfl, trivial⟩

theorem hasitemObject : hasitemObject.Halting := by
  refine ⟨⟨rfl, fun key => ?_⟩, fun entries => ?_⟩
  · dsimp only
    split
    · trivial
    all_goals exact argument rfl
  · dsimp only
    split
    · exact ⟨rfl, trivial⟩
    · trivial

theorem selectorValue (name : String) : (selectorValue name).Halting := by
  have harg {a : Argument} (ha : a.isLine = false) : (Rule.argument a).Halting := argument ha
  have hscores : scores.Halting := ⟨append (argument rfl) (argument rfl), fun _ => trivial⟩
  have hpermission : haspermission.Halting :=
    ⟨append (argument rfl) (argument rfl), fun _ => trivial⟩
  have hhasitem : hasitem.Halting := ⟨⟨hasitemObject, fun _ => trivial⟩, hasitemObject⟩
  have hvalues : (selectorValues.map Prod.snd).Forall Halting :=
    ⟨harg rfl, harg rfl, harg rfl, harg rfl, harg rfl, harg rfl, harg rfl, harg rfl, hscores,
      ⟨harg rfl, trivial⟩, harg rfl, harg rfl, harg rfl, harg rfl, harg rfl, harg rfl, harg rfl,
      hhasitem, harg rfl, harg rfl, ⟨harg rfl, harg rfl⟩, harg rfl, hpermission⟩
  unfold Rule.selectorValue
  cases hl : selectorValues.lookup name with
  | none => trivial
  | some r =>
    exact List.forall_iff_forall_mem.mp hvalues _ (List.mem_map_of_mem (mem_of_lookup hl))

theorem target : target.Halting :=
  ⟨⟨rfl, fun _ => ⟨⟨fun _ => ⟨rfl, selectorValue⟩, fun _ => trivial⟩, trivial⟩⟩, argument rfl⟩

end Halting

/-- What stands inside a command is halting. -/
theorem Arranged.halting {r : Rule} (h : Arranged .inside r) : r.Halting := by
  generalize hp : Place.inside = p at h
  induction h with
  | done => trivial
  | read _ hi _ ih => exact ⟨(inner_of_isInner hi).isLine, fun x => ih x hp⟩
  | spacedRead _ _ hl _ _ ih => exact ⟨hl, fun x => ih x hp⟩
  | spaces _ ih => exact ih hp
  | look _ _ _ ihy ihn => exact ⟨ihy hp, ihn hp⟩
  | compare _ _ ihy ihn => exact ⟨⟨rfl, fun x => ihy x hp⟩, ihn hp⟩
  | append _ _ ihr ihs => exact (ihr rfl).append (ihs hp)
  | target => exact .target
  | blockSuffix => exact .blockSuffix
  | line | json => simp at hp

end Rule

namespace Step.Concludes

variable {c : Cursor}

theorem whole {s : Step} (hs : s.Concludes True) (hn : '\n' ∉ s.cursor.rest) :
    s.whole.Concludes False := by
  rcases id hs with hq | ⟨-, hl, -⟩
  · have hsettle : s.settle.Quiet := by rwa [Quiet, tokens_settle]
    refine hsettle.andThen ?_
    split
    · exact done _
    · exact sweep _ _
  · -- Nothing is left of the text, so that there is not too much of it.
    have hend : s.settle.cursor.atEnd = true := by
      rw [cursor_settle, Cursor.atEnd_iff, ← Cursor.line_eq_rest hn, hl]
    refine hs.settle.andThen_silent ?_ ?_
    all_goals rw [if_pos hend]; rfl

/-- A JSON text at the end of a line. -/
theorem embedded {s : Step} (hs : s.Concludes True) (hn : '\n' ∉ s.cursor.rest) (p : Position) :
    (Step.andThen { s.whole with cursor := c.toLineEnd } (Step.report (.json p))).Concludes
      False := by
  have hend : Concludes False { s.whole with cursor := c.toLineEnd } :=
    (hs.whole hn).imp_right fun ⟨ht, _, _⟩ => ⟨ht, c.line_toLineEnd, False.elim⟩
  exact hend.andThen_silent rfl rfl

/-- Clauses up to the end of the line: each gives up itself where it gives up on the line, or it
leaves nothing of the line and nothing is done behind it. -/
theorem clauses {keywords : List String} {clause : String → Cursor → Step}
    {finish : Option String → Cursor → Step}
    (hf : ∀ last d, d.line = [] → (finish last d).Concludes False)
    (hc : ∀ w, (∀ d, (clause w d).Concludes True) ∨
      (∀ d, (clause w d).Concludes False ∧ (clause w d).cursor.line = []) ∧
        ∀ d, finish (some w) d = .done d)
    (fuel : Nat) (last : Option String) (c : Cursor) :
    (Step.clauses keywords clause finish fuel last c).Concludes False := by
  induction fuel generalizing last c with
  | zero => exact fail _ c
  | succ fuel ih =>
    unfold Step.clauses
    split
    · next hl => exact hf last c (Cursor.lineContinues_eq_false_iff.mp (by simpa using hl))
    · refine argument rfl fun w d => ?_
      rcases hc w with hw | ⟨hw, hfinish⟩
      · exact (hw d).andThen (ih (some w))
      · obtain ⟨hw, hl⟩ := hw d
        have hend : (!(clause w d).cursor.lineContinues) = true := by
          rw [Cursor.lineContinues_eq_false_iff.mpr hl]
          rfl
        cases fuel with
        | zero => exact hw.andThen_silent rfl rfl
        | succ fuel =>
          refine hw.andThen_silent ?_ ?_
          all_goals rw [Step.clauses, if_pos hend, hfinish]; rfl

end Step.Concludes

namespace Rule

variable {version : Version} {env : Env} {r : Rule} {c : Cursor}

/-- What is left of a line is one token. -/
theorem concludes_line (missing : SyntaxError) (env : Env) (c : Cursor) :
    ((argument (.line missing)).run env c).Concludes False := by
  have hread : ∃ value kind, (Argument.line missing).read c =
      ⟨some kind, value, none, some (), c.toLineEnd⟩ := by
    show ∃ value kind, Reading.acceptIf (c.lineText ≠ "") .string .none missing () c.toLineEnd = _
    unfold Reading.acceptIf
    split
    · exact ⟨_, _, rfl⟩
    · exact ⟨_, _, rfl⟩
  obtain ⟨value, kind, hread⟩ := hread
  have hrun : (argument (.line missing)).run env c =
      ⟨[.token ⟨kind, value, ⟨c.position, c.toLineEnd.position⟩⟩], [], .done, c.toLineEnd⟩ := by
    simp only [argument, run, Step.argument, hread, Step.token_ahead _ _ _ c.ahead_toLineEnd]
    rfl
  rw [hrun]
  exact .of_line (by simp [Step.tokens]) c.line_toLineEnd

section

variable (hs : ∀ c, (env.nested c).Sound version c)
include hs

theorem concludes_json (shape : JsonShape) (c : Cursor) :
    ((json shape).run env c).Concludes False := by
  have hwf : (jsonText .strict shape).WellFormed env.dialect none := .jsonText .strict shape
  have hinner : ((jsonText .strict shape).run env
      ⟨Text.trimEnd c.line, c.position⟩).Concludes True :=
    (Halting.jsonText .strict shape).run env _
  have hrest := (sound_run hs hwf (c := ⟨Text.trimEnd c.line, c.position⟩) (by simp)).ahead.notMem
    fun h => c.newline_notMem_line (Text.mem_of_mem_trimEnd h)
  exact (hinner.embedded hrest c.position).andThen_silent rfl rfl

theorem Arranged.concludes_run {p : Place} (h : Arranged p r) (c : Cursor) :
    (r.run env c).Concludes False := by
  induction h generalizing c with
  | done => exact .done c
  | read _ hi _ ih => exact .argument (inner_of_isInner hi).isLine fun x d => ih x d
  | spacedRead _ _ hl _ _ ih => exact .argument hl fun x d => ih x _
  | line => exact concludes_line _ env c
  | spaces _ ih => exact ih _
  | look _ _ _ ihy ihn =>
    unfold run
    split
    · exact ihy c
    · exact ihn c
  | compare _ _ ihy ihn =>
    unfold run
    split
    · exact .argument rfl fun x d => ihy x _
    · exact ihn c
  | append hr _ _ ih =>
    rw [run_append]
    exact (hr.halting.run env c).andThen ih
  | target => exact (Halting.target.run env c).mono
  | blockSuffix => exact (Halting.blockSuffix.run env c).mono
  | json shape => exact concludes_json hs shape c

end

/-- A command gives up on its line with its last token or not at all, if the commands inside it do
and leave nothing of the line. -/
theorem concludes_command {name : String} {rule : Rule} {nested : Cursor → Step}
    (h : Grammar.command? name version = some rule) (hs : ∀ d, (nested d).Sound version d)
    (hn : ∀ d, (nested d).Concludes False ∧ (nested d).cursor.line = []) (c : Cursor) :
    (rule.run ⟨Grammar.dialect version, nested⟩ c).Concludes False := by
  have hnested (d : Cursor) : (run ⟨Grammar.dialect version, nested⟩ (.nested .done) d) =
      nested d := Step.andThen_eq_self rfl
  rcases command?_cases h with hr | ⟨-, rfl⟩ | ⟨-, rfl | rfl⟩
  · exact hr.concludes_run hs c
  · exact .argument rfl fun _ => .done
  · have hhead : Arranged .inside (target ++ position ++ .look (.word "detect") detect .done) :=
      .executeAtHead
    rw [executeAt, run_append]
    exact (hhead.halting.run _ c).andThen fun d => hnested d ▸ (hn d).1
  · refine .clauses (fun last d hd => ?_) (fun w => ?_) _ none c
    · have hcomplain (e : SyntaxError) :
          ((Rule.complain e .done).run ⟨Grammar.dialect version, nested⟩ d).Concludes False :=
        (Step.Concludes.complain e hd).andThen_silent rfl rfl
      cases last with
      | none => exact hcomplain _
      | some w =>
        dsimp only
        split
        · exact .done d
        · exact hcomplain _
    · rcases executeClause_cases w with hw | ⟨rfl, hw⟩
      · exact .inl fun d => hw.halting.run _ d
      · refine .inr ⟨fun d => ?_, fun _ => rfl⟩
        simp only [hw, hnested]
        exact hn d

end Rule
end BedrockCommand

import BedrockCommand.Proofs.Grammar.Commands
import BedrockCommand.Proofs.Rule.Follows
/-!
What the rules of the commands leave to others. They ask the version about two things only, what
follows the name of a block and which selector options there are; and none but `execute` holds
other commands. Apart from these, a run does not depend on what it runs with.
-/
namespace BedrockCommand.Rule

/-- The rule for what follows the name of a block. -/
def suffixRule : Option BlockSuffix → Rule
  | none => .done
  | some .dataOrStates => dataOrStates
  | some .states => statesOnly

/-- The questions to the version that rules ask, each with the rule for the answer. -/
inductive Asked : (Dialect → Rule) → Prop where
  | blockSuffix (next : Rule) : Asked fun d => (suffixRule d.blockSuffix).andThen next
  | selectorOption (next : String → Rule) :
    Asked fun d => .read (.selectorOption d.selectorOptions) next

/-- A rule that asks nothing else of the version, and that holds other commands only if that is
allowed. -/
def Regular (nests : Prop) : Rule → Prop
  | done => True
  | read _ next => ∀ x, (next x).Regular nests
  | expect _ next => next.Regular nests
  | spaces next => next.Regular nests
  | negation next => next.Regular nests
  | look _ yes no => yes.Regular nests ∧ no.Regular nests
  | complain _ next => next.Regular nests
  | refuse _ => True
  | refuseLine _ => True
  | list _ _ element next => element.Regular nests ∧ ∀ entries, (next entries).Regular nests
  | mark _ next => next.Regular nests
  | clauses _ clause next => (∀ w, (clause w).Regular nests) ∧ ∀ w, (next w).Regular nests
  | nested next => nests ∧ next.Regular nests
  | embedded inner next => inner.Regular nests ∧ next.Regular nests
  | noteTooDeep next => next.Regular nests
  | ask next => Asked next ∧ ∀ d, (next d).Regular nests
  | fault _ => True

namespace Regular

variable {nests : Prop} {r s : Rule}

theorem andThen_assoc (r s t : Rule) : (r.andThen s).andThen t = r.andThen (s.andThen t) := by
  induction r with
  | done | refuse | refuseLine | fault => rfl
  | look q yes no ihy ihn => simp only [andThen, ihy, ihn]
  | list b mayBeEmpty element next _ ih | clauses keywords clause next _ ih
  | read a next ih | ask next ih => simp only [andThen, ih]
  | embedded inner next _ ih | expect x next ih | spaces next ih | negation next ih
  | complain e next ih | mark name next ih | nested next ih | noteTooDeep next ih =>
    simp only [andThen, ih]

theorem append (hr : r.Regular nests) (hs : s.Regular nests) : (r ++ s).Regular nests := by
  change (r.andThen s).Regular nests
  induction r with
  | done => exact hs
  | refuse | refuseLine | fault => trivial
  | read a next ih => exact fun x => ih x (hr x)
  | look q yes no ihy ihn => exact ⟨ihy hr.1, ihn hr.2⟩
  | expect x next ih | spaces next ih | negation next ih | complain e next ih | mark name next ih
  | noteTooDeep next ih => exact ih hr
  | list b mayBeEmpty element next _ ih => exact ⟨hr.1, fun entries => ih entries (hr.2 entries)⟩
  | clauses keywords clause next _ ih => exact ⟨hr.1, fun w => ih w (hr.2 w)⟩
  | nested next ih => exact ⟨hr.1, ih hr.2⟩
  | embedded inner next _ ih => exact ⟨hr.1, ih hr.2⟩
  | ask next ih =>
    refine ⟨?_, fun d => ih d (hr.2 d)⟩
    cases hr.1 with
    | blockSuffix next =>
      simp only [andThen_assoc]
      exact .blockSuffix _
    | selectorOption next => exact .selectorOption fun name => (next name).andThen s

theorem argument (a : Argument) : (argument a).Regular nests := fun _ => trivial

theorem jsonConstant (names : List String) : (jsonConstant names).Regular nests := by
  induction names with
  | nil => trivial
  | cons w names ih => exact ⟨fun _ => trivial, ih⟩

theorem jsonValueWith (dialect : JsonDialect) {array object : Rule} (ha : array.Regular nests)
    (ho : object.Regular nests) : (jsonValueWith dialect array object).Regular nests :=
  ⟨argument _, argument _, ha, ho, jsonConstant _⟩

theorem jsonValue (dialect : JsonDialect) (depth : Nat) :
    (jsonValue dialect depth).Regular nests := by
  induction depth with
  | zero => exact jsonValueWith dialect trivial trivial
  | succ depth ih =>
    exact jsonValueWith dialect ⟨ih, fun _ => trivial⟩ ⟨fun _ => ih, fun _ => trivial⟩

theorem jsonText (dialect : JsonDialect) (shape : JsonShape) :
    (jsonText dialect shape).Regular nests := by
  have hvalue : (Rule.jsonValue dialect maxNesting).Regular nests := jsonValue _ _
  cases shape with
  | any => exact hvalue
  | array => exact ⟨hvalue, fun _ => trivial⟩
  | object => exact ⟨fun _ => hvalue, fun _ => trivial⟩

theorem json (shape : JsonShape) : (json shape).Regular nests :=
  ⟨jsonText .strict shape, trivial⟩

theorem blockStates : blockStates.Regular nests :=
  ⟨fun _ => ⟨argument _, argument _, argument _⟩, fun _ => trivial⟩

theorem suffixRule (suffix : Option BlockSuffix) : (suffixRule suffix).Regular nests := by
  cases suffix with
  | none => trivial
  | some suffix =>
    cases suffix with
    | dataOrStates => exact ⟨argument _, blockStates, trivial⟩
    | states => exact ⟨blockStates, argument _, trivial⟩

theorem blockSuffix : blockSuffix.Regular nests := by
  have hasked : (fun d : Dialect => (Rule.suffixRule d.blockSuffix).andThen .done) = fun d =>
      match d.blockSuffix with
      | none => .done
      | some .dataOrStates => dataOrStates
      | some .states => statesOnly := by
    funext d
    cases d.blockSuffix with
    | none => rfl
    | some suffix => cases suffix <;> rfl
  refine ⟨hasked ▸ .blockSuffix .done, fun d => ?_⟩
  have h : (Rule.suffixRule d.blockSuffix ++ .done).Regular nests := append (suffixRule _) trivial
  rwa [show Rule.suffixRule d.blockSuffix ++ .done = _ from congrFun hasked d] at h

theorem hasitemObject : hasitemObject.Regular nests := by
  refine ⟨fun key => ?_, fun entries => ?_⟩
  · dsimp only
    split
    · trivial
    all_goals exact argument _
  · dsimp only
    split <;> trivial

theorem selectorValue (name : String) : (selectorValue name).Regular nests := by
  have hargument (a : Argument) : (Rule.argument a).Regular nests := argument a
  have hscores : scores.Regular nests := ⟨append (argument _) (argument _), fun _ => trivial⟩
  have hpermission : haspermission.Regular nests :=
    ⟨append (argument _) (argument _), fun _ => trivial⟩
  have hhasitem : hasitem.Regular nests := ⟨⟨hasitemObject, fun _ => trivial⟩, hasitemObject⟩
  have hvalues : (selectorValues.map Prod.snd).Forall (Regular nests) :=
    ⟨hargument _, hargument _, hargument _, hargument _, hargument _, hargument _, hargument _,
      hargument _, hscores, ⟨hargument _, trivial⟩, hargument _, hargument _, hargument _,
      hargument _, hargument _, hargument _, hargument _, hhasitem, hargument _, hargument _,
      ⟨hargument _, hargument _⟩, hargument _, hpermission⟩
  unfold Rule.selectorValue
  cases hl : selectorValues.lookup name with
  | none => trivial
  | some r =>
    exact List.forall_iff_forall_mem.mp hvalues _ (List.mem_map_of_mem (mem_of_lookup hl))

theorem target : target.Regular nests :=
  ⟨fun _ => ⟨⟨⟨.selectorOption fun name => .expect '=' (Rule.selectorValue name),
    fun _ => selectorValue⟩, fun _ => trivial⟩, trivial⟩, argument _⟩

end Regular

theorem Composed.regular {nests : Prop} {r : Rule} (h : Composed nests r) : r.Regular nests := by
  induction h with
  | done => trivial
  | read _ _ _ ih => exact ih
  | spaces _ ih | complain _ _ ih => exact ih
  | look _ _ _ ihy ihn | compare _ _ ihy ihn => exact ⟨ihy, ihn⟩
  | append _ _ ihr ihs => exact ihr.append ihs
  | target => exact .target
  | blockSuffix => exact .blockSuffix
  | json shape => exact .json shape
  | clauses _ _ _ ihc ihn => exact ⟨ihc, ihn⟩
  | nested h => exact ⟨h, trivial⟩

/-- A rule does the same with other answers to its questions and with other commands inside it, as
long as these follow each other. -/
theorem follows_run {Q : Event → Prop} {env env' : Env} {nests : Prop}
    (hn : nests → Step.Follows Q env.nested env'.nested)
    (ha : ∀ next, Asked next →
      (∀ d, Step.Follows Q ((next d).run env) ((next d).run env')) →
      Step.Follows Q ((next env.dialect).run env) ((next env'.dialect).run env'))
    {r : Rule} (h : r.Regular nests) : Step.Follows Q (r.run env) (r.run env') := by
  induction r with
  | done | refuse | refuseLine | fault => exact .refl _
  | read a next ih => exact .argument fun x => ih x (h x)
  | spaces next ih => exact fun c => ih h c.skipSpaces
  | negation next ih => exact fun c => ih h (Reader.negation c).2
  | look q yes no ihy ihn => exact .ite (q.holds · = true) (ihy h.1) (ihn h.2)
  | expect x next ih | complain e next ih | mark name next ih | noteTooDeep next ih =>
    exact .andThen (.refl _) (ih h)
  | list b mayBeEmpty element next ihe ih =>
    intro c hc
    have hlist : Step.list b mayBeEmpty (element.run env') c = _ :=
      Step.Follows.list (ihe h.1) c hc.left
    simp only [run] at hc ⊢
    rw [hlist]
    exact Step.andThen_congr_right (ih _ (h.2 _)) hc
  | clauses keywords clause next ihc ih =>
    exact fun c => Step.Follows.clauses (fun w => ihc w (h.1 w)) (fun w => ih w (h.2 w)) none c
  | nested next ih => exact (hn h.1).andThen (ih h.2)
  | embedded inner next ihi ih =>
    intro c hc
    have hinner := Step.Follows.whole (ihi h.1) ⟨Text.trimEnd c.line, c.position⟩ hc.left.left
    simp only [run] at hinner hc ⊢
    rw [hinner]
    exact Step.andThen_congr_right (ih h.2) hc
  | ask next ih => exact ha next h.1 fun d => ih d (h.2 d)

end BedrockCommand.Rule

import BedrockCommand.Proofs.Grammar.Commands
import BedrockCommand.Proofs.Rule.Only
/-!
The words of the grammar. The rules of the commands of a version are in plain words throughout, and
have only such arguments as the version has. So what a command reports comes from these.
-/
namespace BedrockCommand.Rule

/-- A rule in plain words, with arguments that a dialect has. It holds other commands only if that
is allowed. -/
def Plain (d : Dialect) (nests : Prop) : Rule → Prop
  | done => True
  | read a next => d.Allows a ∧ ∀ x, (next x).Plain d nests
  | expect x next => isPlainChar x = true ∧ next.Plain d nests
  | spaces next => next.Plain d nests
  | negation next => next.Plain d nests
  | look q yes no => q.isPlain = true ∧ yes.Plain d nests ∧ no.Plain d nests
  | complain e next => e.isFixed = true ∧ next.Plain d nests
  | refuse e => e.isFixed = true
  | refuseLine e => e.isFixed = true
  | list _ _ element next => element.Plain d nests ∧ ∀ entries, (next entries).Plain d nests
  | mark _ next => next.Plain d nests
  | clauses keywords clause next => keywords.all isPlainWord = true ∧
    (∀ w, (clause w).Plain d nests) ∧ ∀ w, (next w).Plain d nests
  | nested next => nests ∧ next.Plain d nests
  | embedded inner next => inner.Plain d nests ∧ next.Plain d nests
  | noteTooDeep next => next.Plain d nests
  | ask next => (next d).Plain d nests
  | fault _ => True

namespace Plain

variable {d : Dialect} {nests : Prop} {r s : Rule}

theorem append (hr : r.Plain d nests) (hs : s.Plain d nests) : (r ++ s).Plain d nests := by
  change (r.andThen s).Plain d nests
  induction r with
  | done => exact hs
  | refuse | refuseLine => exact hr
  | fault => trivial
  | read a next ih => exact ⟨hr.1, fun x => ih x (hr.2 x)⟩
  | look q yes no ihy ihn => exact ⟨hr.1, ihy hr.2.1, ihn hr.2.2⟩
  | spaces next ih | negation next ih | mark name next ih | noteTooDeep next ih => exact ih hr
  | expect x next ih | complain e next ih | nested next ih => exact ⟨hr.1, ih hr.2⟩
  | list b mayBeEmpty element next _ ih => exact ⟨hr.1, fun entries => ih entries (hr.2 entries)⟩
  | clauses keywords clause next _ ih => exact ⟨hr.1, hr.2.1, fun w => ih w (hr.2.2 w)⟩
  | embedded inner next _ ih => exact ⟨hr.1, ih hr.2⟩
  | ask next ih => exact ih d hr

theorem argument {a : Argument} (h : a.isPlain = true) : (argument a).Plain d nests :=
  ⟨.of_isPlain h, fun _ => trivial⟩

theorem jsonConstant {names : List String} (h : names.all isPlainWord = true) :
    (jsonConstant names).Plain d nests := by
  induction names with
  | nil => rfl
  | cons w names ih =>
    obtain ⟨hw, hnames⟩ := Bool.and_eq_true_iff.mp (List.all_cons ▸ h)
    exact ⟨hw, ⟨.of_isPlain hw, fun _ => trivial⟩, ih hnames⟩

theorem jsonValueWith (dialect : JsonDialect) {array object : Rule} (ha : array.Plain d nests)
    (ho : object.Plain d nests) : (jsonValueWith dialect array object).Plain d nests :=
  ⟨rfl, argument rfl, rfl, argument rfl, rfl, ha, rfl, ho,
    jsonConstant (by cases dialect <;> rfl)⟩

theorem jsonArray {item : Rule} (h : item.Plain d nests) : (jsonArray item).Plain d nests :=
  ⟨h, fun _ => trivial⟩

theorem jsonObject {item : Rule} (h : item.Plain d nests) : (jsonObject item).Plain d nests :=
  ⟨⟨.of_isPlain rfl, fun _ => ⟨rfl, h⟩⟩, fun _ => trivial⟩

theorem jsonValue (dialect : JsonDialect) (depth : Nat) :
    (jsonValue dialect depth).Plain d nests := by
  induction depth with
  | zero => exact jsonValueWith dialect rfl rfl
  | succ depth ih => exact jsonValueWith dialect (jsonArray ih) (jsonObject ih)

theorem jsonText (dialect : JsonDialect) (shape : JsonShape) :
    (jsonText dialect shape).Plain d nests := by
  have hvalue : (Rule.jsonValue dialect maxNesting).Plain d nests := jsonValue _ _
  cases shape with
  | any => exact hvalue
  | array => exact jsonArray hvalue
  | object => exact jsonObject hvalue

theorem json (shape : JsonShape) : (json shape).Plain d nests :=
  ⟨jsonText .strict shape, trivial⟩

theorem blockStates : blockStates.Plain d nests :=
  ⟨⟨.of_isPlain rfl, fun _ => ⟨rfl, rfl, argument rfl, rfl, argument rfl, argument rfl⟩⟩,
    fun _ => trivial⟩

/-- Data values of blocks are asked for only where the version has them. -/
theorem blockSuffix : blockSuffix.Plain d nests := by
  unfold Rule.blockSuffix Plain
  beta_reduce
  cases h : d.blockSuffix with
  | none => trivial
  | some suffix =>
    cases suffix with
    | dataOrStates => exact ⟨rfl, ⟨h, fun _ => trivial⟩, rfl, blockStates, rfl⟩
    | states => exact ⟨rfl, blockStates, rfl, argument rfl, trivial⟩

theorem hasitemObject : hasitemObject.Plain d nests := by
  refine ⟨⟨.of_isPlain rfl, fun key => ?_⟩, fun entries => ?_⟩
  · dsimp only
    split
    · trivial
    all_goals exact ⟨rfl, argument rfl⟩
  · dsimp only
    split
    · exact ⟨rfl, trivial⟩
    · trivial

theorem selectorValue (name : String) : (selectorValue name).Plain d nests := by
  have harg {a : Argument} (ha : a.isPlain = true) : (Rule.argument a).Plain d nests := argument ha
  have hscores : scores.Plain d nests :=
    ⟨append (argument rfl) ⟨rfl, argument rfl⟩, fun _ => trivial⟩
  have hpermission : haspermission.Plain d nests :=
    ⟨append (argument rfl) ⟨rfl, argument rfl⟩, fun _ => trivial⟩
  have hhasitem : hasitem.Plain d nests :=
    ⟨rfl, ⟨hasitemObject, fun _ => trivial⟩, hasitemObject⟩
  have hvalues : (selectorValues.map Prod.snd).Forall (Plain d nests) :=
    ⟨harg rfl, harg rfl, harg rfl, harg rfl, harg rfl, harg rfl, harg rfl, harg rfl, hscores,
      ⟨rfl, harg rfl, trivial⟩, harg rfl, harg rfl, harg rfl, harg rfl, harg rfl, harg rfl,
      harg rfl, hhasitem, harg rfl, harg rfl, ⟨rfl, harg rfl, harg rfl⟩, harg rfl, hpermission⟩
  unfold Rule.selectorValue
  cases hl : selectorValues.lookup name with
  | none => trivial
  | some r =>
    exact List.forall_iff_forall_mem.mp hvalues _ (List.mem_map_of_mem (mem_of_lookup hl))

theorem target : target.Plain d nests :=
  ⟨rfl, ⟨.of_isPlain rfl, fun _ => ⟨rfl, ⟨⟨rfl, fun name => ⟨rfl, selectorValue name⟩⟩,
    fun _ => trivial⟩, trivial⟩⟩, argument rfl⟩

end Plain

theorem Composed.plain {d : Dialect} {nests : Prop} {r : Rule} (h : Composed nests r) :
    r.Plain d nests := by
  induction h with
  | done => trivial
  | read _ hp _ ih => exact ⟨.of_isPlain hp, ih⟩
  | spaces _ ih => exact ih
  | look hq _ _ ihy ihn => exact ⟨hq, ihy, ihn⟩
  | compare _ _ ihy ihn => exact ⟨rfl, ⟨.of_isPlain rfl, ihy⟩, ihn⟩
  | append _ _ ihr ihs => exact ihr.append ihs
  | complain he _ ih => exact ⟨he, ih⟩
  | target => exact .target
  | blockSuffix => exact .blockSuffix
  | json shape => exact .json shape
  | clauses hk _ _ ihc ihn => exact ⟨hk, ihc, ihn⟩
  | nested h => exact ⟨h, trivial⟩

/-- A rule reports what its arguments and the commands inside it report, and errors. -/
theorem only_run {Q : Event → Prop} {env : Env} (hq : Event.CoversArguments env.dialect Q)
    {nests : Prop} (hn : nests → ∀ c, (env.nested c).Only Q) {r : Rule}
    (h : r.Plain env.dialect nests) (c : Cursor) : (r.run env c).Only Q := by
  induction r generalizing c with
  | done => exact .done c
  | read a next ih => exact .argument hq h.1 fun x => ih x (h.2 x)
  | expect x next ih => exact .andThen (.expect hq.errors x c) (ih h.2)
  | spaces next ih | negation next ih => exact ih h _
  | look q yes no ihy ihn =>
    unfold run
    split
    · exact ihy h.2.1 c
    · exact ihn h.2.2 c
  | complain e next ih => exact .andThen (.complain hq.errors e c) (ih h.2)
  | refuse e => exact .refuse hq.errors e c
  | refuseLine e => exact .andThen (.sweep hq.errors e c) .halt
  | list b mayBeEmpty element next ihe ih =>
    have hlist : (Step.list b mayBeEmpty (element.run env) c).Only Q := .list hq.errors (ihe h.1) c
    exact .andThen (s := (Step.list ..).unmarked) hlist (ih _ (h.2 _))
  | mark name next ih => exact .andThen (s := ⟨[], _, _, _⟩) (List.forall_mem_nil _) (ih h)
  | clauses keywords clause next ihc ih =>
    exact .clauses hq h.1 (fun w => ihc w (h.2.1 w)) (fun w => ih w (h.2.2 w)) _ none c
  | nested next ih => exact .andThen (hn h.1 c) (ih h.2)
  | embedded inner next ihi ih =>
    have hinner := Step.Only.whole hq.errors (ihi h.1 ⟨Text.trimEnd c.line, c.position⟩)
    have hjson : (Step.andThen { (inner.run env _).whole with cursor := c.toLineEnd }
        (Step.report (.json c.position))).Only Q :=
      .andThen hinner (.report (hq.json _))
    exact hjson.andThen (ih h.2)
  | noteTooDeep next ih => exact .andThen (.report (hq.tooDeep _) c) (ih h)
  | ask next ih => exact ih _ h c
  | fault f => exact .fail f c

end BedrockCommand.Rule

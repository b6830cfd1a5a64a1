import BedrockCommand.Proofs.Grammar.Upgrade
import BedrockCommand.Proofs.Rule.Exact
import BedrockCommand.Proofs.Selector.Target
/-!
Targets are exact: a target is read without an error if and only if the text begins with one.
-/
namespace BedrockCommand

namespace Form

variable {F : Form α} {b : Brackets} {cs ds : List Char}

/-! ## How forms begin -/

theorem BeginsInside.seq (hF : F.BeginsInside b) (G : α → Form Unit) :
    (F.seq G).BeginsInside b := by
  rintro cs x ds ⟨h, -⟩
  exact hF _ _ _ h

theorem BeginsInside.sat (hF : F.BeginsInside b) (p : α → Prop) : (F.sat p).BeginsInside b := by
  rintro cs x ds ⟨h, -⟩
  exact hF _ _ _ h

theorem BeginsInside.spaced (hF : F.BeginsInside b) : (spaced F).BeginsInside b := by
  rintro cs x ds ⟨h⟩
  exact hF _ _ _ h

theorem word.beginsInside : word.BeginsInside b := by
  intro cs w ds h
  obtain ⟨x, es, rfl, hx⟩ := h.head
  rintro hb
  obtain rfl := Option.some.inj hb
  cases b <;> exact absurd hx (by decide)

theorem keyword.beginsInside (allowed : List String) : (keyword allowed).BeginsInside b :=
  .sat (.spaced word.beginsInside) _

theorem text.beginsInside : text.BeginsInside b := by
  rintro cs _ ds (⟨⟨-⟩, -⟩ | ⟨⟨h⟩⟩)
  · cases b <;> simp [Brackets.closing]
  · exact word.beginsInside _ _ _ h

theorem hasitemObject.beginsInside : hasitemObject.BeginsInside b := by
  rintro cs _ ds ⟨⟨-⟩, -⟩
  cases b <;> simp [Brackets.opening, Brackets.closing]

theorem list.head? {xs : List α} (h : list b F cs xs ds) : cs.head? = some b.opening := by
  obtain ⟨-⟩ := h
  rfl

theorem hasitemObject.head? (h : hasitemObject cs () ds) : cs.head? = some '\x7b' := by
  obtain ⟨h, -⟩ := h
  exact h.head?

theorem spaced.beginsNumber {n : Int} (h : spaced integer cs n ds) : beginsNumber cs = true := by
  obtain ⟨⟨h, -⟩⟩ := h
  exact Reader.beginsNumber_integer h _

/-- A text begins with a quote, or with a character that does not end words. -/
theorem spaced.endsWord {u : Unit} (h : spaced text cs u ds) :
    endsWord cs = false ∨ cs.head? = some '"' := by
  rcases h with ⟨⟨⟨-⟩, -⟩ | ⟨⟨h⟩⟩⟩
  · exact .inr rfl
  · obtain ⟨x, es, rfl, hx⟩ := h.head
    exact .inl hx

/-- A word of a list stands at the beginning of the text. -/
theorem keyword.cases {allowed : List String} {w : String} (h : keyword allowed cs w ds) :
    w ∈ allowed ∧ ∃ rest, cs = w.toList ++ rest := by
  obtain ⟨⟨⟨⟨-⟩, -⟩⟩, hw⟩ := h
  exact ⟨hw, _, by rw [String.toList_ofList]⟩

/-! ## Values -/

section

variable {env : Env} {version : Version} (hn : ∀ c, (env.nested c).Sound version c)
include hn

/-- A list of which nothing is asked but its elements. -/
theorem exact_listRule {r : Rule} {marks : α → List String} (h : F.Exact marks (r.run env))
    (hF : F.BeginsInside b) (hr : r.WellFormed env.dialect none) :
    (any (list b F)).Exact (fun _ => []) ((Rule.list b false r fun _ => .done).run env) := by
  have hs (d : Cursor) : (r.run env d).Sound version d := Rule.sound_run hn hr (by simp)
  have hrun (c : Cursor) : (Rule.list b false r fun _ => .done).run env c =
      (Step.list b false (r.run env) c).unmarked := Step.andThen_eq_self rfl
  refine fun c => ⟨fun hc => ?_, fun hc => ?_⟩
  · rw [hrun] at hc
    obtain ⟨xs, ds, hx⟩ := (exact_list h hF hs c).sound ⟨hc.faultless, hc.only⟩
    exact ⟨(), ds, .intro hx⟩
  · obtain ⟨hx⟩ := hc
    rw [hrun]
    exact ((exact_list h hF hs c).complete hx).unmarked

omit hn in
/-- A key, an equals sign and a rule for the value. -/
theorem exact_entry {a : Argument} {key : Form α} {answer : α → a.Answer}
    {value : α → Form Unit} {marks : α → List String} {next : a.Answer → Rule}
    (ha : a.Takes key answer) (hfit : a.FitsAfter none)
    (hv : ∀ {cs k ds}, key cs k ds →
      (symbol '=' (value k)).Exact (fun _ => marks k) ((next (answer k)).run env)) :
    (entry key value).Exact marks ((Rule.read a next).run env) :=
  fun c => exactAt_seq (ha c) (a.ahead_read hfit c (by simp)) hv

omit hn in
theorem exact_range : rangeValue.Exact (fun _ => []) (Rule.range.run env) :=
  any_unit rangeValue ▸ exact_argument Argument.takes_range trivial

omit hn in
theorem exact_text (role : Role) :
    (spaced text).Exact (fun _ => []) ((Rule.argument (.text role)).run env) :=
  any_unit (spaced text) ▸ exact_argument (Argument.takes_text role) trivial

theorem exact_scores : scores.Exact (fun _ => []) (Rule.scores.run env) :=
  exact_listRule hn (exact_entry (Argument.takes_text _) trivial fun _ => exact_expect exact_range)
    (.seq (.spaced text.beginsInside) _) (Rule.WellFormed.scores : Rule.WellFormed _ _ none).1

theorem exact_haspermission : haspermission.Exact (fun _ => []) (Rule.haspermission.run env) :=
  exact_listRule hn (exact_entry (Argument.takes_keyword _) trivial fun _ =>
    exact_expect (exact_argument Argument.takes_permissionState trivial))
    ((keyword.beginsInside _).seq _) (Rule.WellFormed.haspermission : Rule.WellFormed _ _ none).1

/-- The mark of an entry of a `hasitem` object. -/
def hasitemMarks (key : String) : List String :=
  if key = "item" then ["item"] else []

omit hn in
theorem exact_hasitemEntry : (entry (keyword Argument.hasitemKeys) hasitemValue).Exact hasitemMarks
    (Rule.hasitemEntry.run env) := by
  refine exact_entry Argument.takes_hasitemKey trivial fun {cs k ds} hk => ?_
  have hkey := hk.cases.1
  simp only [Argument.hasitemKeys, List.mem_cons, List.not_mem_nil, or_false] at hkey
  rcases hkey with rfl | rfl | rfl | rfl | rfl
  · exact exact_mark (exact_expect (exact_argument Argument.takes_identifier trivial))
  · exact exact_expect (exact_argument Argument.takes_hasitemData trivial)
  · exact exact_expect exact_range
  · exact exact_expect (exact_argument Argument.takes_word trivial)
  · exact exact_expect exact_range

omit hn in
theorem isEmpty_hasitemMarks (keys : List String) :
    (keys.flatMap hasitemMarks).isEmpty = !decide ("item" ∈ keys) := by
  induction keys with
  | nil => rfl
  | cons key keys ih =>
    by_cases hk : key = "item"
    · simp [hasitemMarks, hk]
    · rw [List.flatMap_cons, hasitemMarks, if_neg hk, List.nil_append, ih]
      simp [Ne.symm hk]

theorem exact_hasitemObject :
    hasitemObject.Exact (fun _ => []) (Rule.hasitemObject.run env) := by
  have hwell : Rule.hasitemObject.WellFormed env.dialect none := .hasitemObject
  have hs (d : Cursor) : (Rule.hasitemEntry.run env d).Sound version d :=
    Rule.sound_run hn hwell.1 (by simp)
  have hlist := exact_list exact_hasitemEntry ((keyword.beginsInside _).seq _) (b := .curly) hs
  -- What the list has marked decides whether an error comes behind it.
  have hrun {c : Cursor} {keys : List String} {ds : List Char}
      (h : (Step.list .curly false (Rule.hasitemEntry.run env) c).Accepts
        (keys.flatMap hasitemMarks) ds) : Rule.hasitemObject.run env c =
        (Step.list .curly false (Rule.hasitemEntry.run env) c).unmarked.andThen
          ((if "item" ∈ keys then .done else .complain .missingHasitemItem .done : Rule).run
            env) := by
    unfold Rule.hasitemObject
    simp only [Rule.run, h.marks, isEmpty_hasitemMarks]
    by_cases hi : "item" ∈ keys <;> simp [hi]
  refine fun c => ⟨fun hc => ?_, fun hc => ?_⟩
  · obtain ⟨keys, ds, hx⟩ := (hlist c).sound ⟨hc.left.faultless, hc.left.only⟩
    have hx' := (hlist c).complete hx
    rw [hrun hx'] at hc
    have hitem := hc.right hx'.unmarked.outcome
    split at hitem
    · next hi => exact ⟨(), ds, .intro hx hi⟩
    · exact absurd hitem.left (Step.not_clean_error _ _ _)
  · obtain ⟨hx, hi⟩ := hc
    have hx' := (hlist c).complete hx
    rw [hrun hx', if_pos hi]
    exact hx'.rest ▸ hx'.unmarked.andThen (.done _)

theorem exact_hasitem : hasitem.Exact (fun _ => []) (Rule.hasitem.run env) := by
  refine exact_either (exact_listRule hn (exact_hasitemObject hn) hasitemObject.beginsInside
    .hasitemObject) (exact_hasitemObject hn) (fun {c _ _} h => ?_) fun {c _ _} h => ?_
  · obtain ⟨h⟩ := h
    exact (c.isAt_eq_head? '[').trans (by rw [h.head?]; rfl)
  · exact (c.isAt_eq_head? '[').trans (by rw [h.head?]; rfl)

omit hn in
theorem exact_gameMode : gameMode.Exact (fun _ => []) (Rule.gameMode.run env) := by
  refine exact_either (exact_argument Argument.takes_gameMode trivial)
    (exact_argument (Argument.takes_keyword _) trivial) (fun {c _ _} h => ?_) fun {c _ _} h => ?_
  · obtain ⟨⟨h, -⟩⟩ := h
    exact h.beginsNumber
  · obtain ⟨h⟩ := h
    obtain ⟨hw, rest, hr⟩ := h.cases
    change beginsNumber c.rest = false
    rw [hr]
    simp only [List.mem_cons, List.not_mem_nil, or_false] at hw
    rcases hw with rfl | rfl | rfl | rfl | rfl | rfl | rfl | rfl <;> rfl

omit hn in
/-- Nothing is read in place of a tag unless a text begins there. -/
theorem exact_tag : (negatable (either (spaced text) noTag)).Exact (fun _ => [])
    (Rule.selectorTag.run env) := by
  have hholds (c : Cursor) : Look.text.holds c =
      (!endsWord c.rest || decide (c.rest.head? = some '"')) := by
    rw [Look.holds, c.terminated_eq, c.isAt_eq_head?]
  refine exact_negation (exact_look (fun {c} hq => ?_) fun {c} hq => ⟨fun _ => ?_, fun h => ?_⟩)
  · refine (exact_text .tag c).congr ⟨.left, fun h => ?_⟩
    rw [hholds] at hq
    generalize c.rest = cs at *
    cases h with
    | left h => exact h
    | right h =>
      obtain ⟨he, hquote⟩ := h
      simp [he, hquote] at hq
  · rw [hholds] at hq
    obtain ⟨he, hquote⟩ := Bool.or_eq_false_iff.mp hq
    exact ⟨(), _, .right (.intro (by simpa using he) (by simpa using hquote))⟩
  · have hdone := Step.Accepts.done c
    rw [hholds] at hq
    generalize c.rest = cs at *
    cases h with
    | left h =>
      rcases h.endsWord with he | hquote
      · simp [he] at hq
      · simp [hquote] at hq
    | right h =>
      obtain ⟨-, -⟩ := h
      exact hdone

/-- Every selector option has the value that its form says. -/
theorem exact_selectorValues : ∀ entry ∈ Rule.selectorValues,
    (optionValue entry.1).Exact (fun _ => []) (entry.2.run env) := by
  have hcoordinate : (optionValue "x").Exact (fun _ => [])
      ((Rule.argument .selectorCoordinate).run env) :=
    exact_argument Argument.takes_selectorCoordinate trivial
  have hnumber : (optionValue "dx").Exact (fun _ => []) (Rule.anyNumber.run env) :=
    exact_argument Argument.takes_anyNumber trivial
  have hradius : (optionValue "r").Exact (fun _ => []) ((Rule.numberFrom 0).run env) :=
    exact_argument (Argument.takes_number (by simp [Argument.isWithin])) trivial
  have hlevel : (optionValue "l").Exact (fun _ => []) ((Rule.integerFrom 0).run env) :=
    exact_argument (Argument.takes_integer (fun _ h => by simpa [Argument.liesIn] using h)
      fun h => by simpa [Argument.liesIn] using h) trivial
  have hname : (optionValue "name").Exact (fun _ => []) ((Rule.negation Rule.text).run env) :=
    exact_negation (exact_text _)
  have htype : (optionValue "type").Exact (fun _ => [])
      ((Rule.negation Rule.identifier).run env) :=
    exact_negation (exact_argument Argument.takes_identifier trivial)
  have hcount : (optionValue "c").Exact (fun _ => []) (Rule.anyInteger.run env) :=
    exact_argument Argument.takes_anyInteger trivial
  unfold Rule.selectorValues
  simp only [List.forall_mem_cons, List.not_mem_nil, false_implies, implies_true, and_true]
  exact ⟨hcoordinate, hcoordinate, hcoordinate, hnumber, hnumber, hnumber, hradius, hradius,
    exact_scores hn, exact_tag, hname, htype, hname, hnumber, hnumber, hnumber, hnumber,
    exact_hasitem hn, hlevel, hlevel, exact_gameMode, hcount, exact_haspermission hn⟩

end

/-! ## Options and targets -/

variable {version : Version}

theorem selectorOptions_eq (version : Version) :
    (Grammar.dialect version).selectorOptions = optionNames version := by
  rw [Grammar.selectorOptions_dialect, optionNames]
  split <;> rfl

theorem exact_option (version : Version) :
    (option version).Exact (fun _ => []) (readOption version) := by
  have hn (c : Cursor) : (Step.done c).Sound version c := .done c
  have hkeyword := congrArg keyword (selectorOptions_eq version)
  have htakes := hkeyword ▸ Argument.takes_selectorOption (Grammar.dialect version).selectorOptions
  refine exact_entry htakes trivial fun {cs name ds} hk => exact_expect ?_
  have hname : name ∈ (Grammar.dialect version).selectorOptions :=
    selectorOptions_eq version ▸ hk.cases.1
  obtain ⟨r, hr, hvalue⟩ := Rule.exists_selectorValue (Rule.mem_selectorValues hname)
  exact hvalue ▸ exact_selectorValues hn _ hr

/-- The rule for what follows a selector variable. -/
def optionsRule : Rule :=
  .look (.char '[') (.list .square false Rule.selectorEntry fun _ => .spaces .done)
    (.spaces .done)

theorem exact_options (version : Version) (nested : Cursor → Step) :
    (spaced (options version)).Exact (fun _ => [])
      (optionsRule.run ⟨Grammar.dialect version, nested⟩) := by
  have hlist := exact_list (exact_option version) (b := .square)
    ((keyword.beginsInside _).seq _) (sound_readOption version)
  have hholds (c : Cursor) : (Look.char '[').holds c = decide (c.rest.head? = some '[') :=
    c.isAt_eq_head? '['
  have hspaces (c : Cursor) : (Step.done c.skipSpaces).Accepts [] (afterSpaces c.rest) :=
    c.rest_skipSpaces ▸ .done _
  refine exact_look (fun {c} hq => ⟨fun hc => ?_, fun h => ?_⟩) fun {c} hq =>
    ⟨fun _ => ?_, fun h => ?_⟩
  · rw [Rule.run, run_selectorEntry] at hc
    obtain ⟨names, ds, hx⟩ := (hlist c).sound ⟨hc.left.faultless, hc.left.only⟩
    exact ⟨(), _, .intro (.list hx)⟩
  · rw [hholds] at hq
    rw [Rule.run, run_selectorEntry]
    generalize hcs : c.rest = cs at *
    obtain ⟨h⟩ := h
    cases h with
    | none hne => simp [hne] at hq
    | list h =>
      have hx := (hlist c).complete (hcs ▸ h)
      exact hx.rest ▸ hx.unmarked.andThen (hspaces _)
  · rw [hholds] at hq
    exact ⟨(), _, .intro (.none (by simpa using hq))⟩
  · rw [hholds] at hq
    have hdone := hspaces c
    generalize c.rest = cs at *
    obtain ⟨h⟩ := h
    cases h with
    | none => exact hdone
    | list h => simp [h.head?, Brackets.opening] at hq

theorem exact_target (version : Version) (nested : Cursor → Step) :
    (target version).Exact (fun _ => []) (Rule.target.run ⟨Grammar.dialect version, nested⟩) := by
  refine exact_look (fun {c} hq => ?_) fun {c} hq => ?_
  · have hline : (Look.char '@').holds ⟨c.line, .origin⟩ = true :=
      (Look.seesLine_holds (l := .char '@') (by decide)).eq_line c ▸ hq
    have hahead : c.Ahead (Argument.selectorVariable.read c).cursor :=
      Argument.selectorVariable.ahead_read rfl c fun l hl => Option.some.inj hl ▸ hline
    have hseq : ((marked '@' selectorVariable).seq fun _ => spaced (options version)).ExactAt
        (fun _ => []) c (Step.argument .selectorVariable c fun _ =>
          optionsRule.run ⟨Grammar.dialect version, nested⟩) :=
      exactAt_seq (Argument.takesAt_selectorVariable hq) hahead fun _ =>
        exact_options version nested
    refine hseq.any.congr ⟨.left, fun h => ?_⟩
    have hat : c.rest.head? = some '@' := by
      simpa [Look.holds, c.isAt_eq_head?] using hq
    generalize c.rest = cs at *
    cases h with
    | left h => exact h
    | right h =>
      obtain ⟨es, rfl⟩ := List.head?_eq_some_iff.mp hat
      rcases h.endsWord with he | hquote
      · have hat : endsWord ('@' :: es) = true := rfl
        simp [hat] at he
      · simp at hquote
  · refine (exact_text .selector c).congr ⟨.right, fun h => ?_⟩
    rw [Look.holds, c.isAt_eq_head?] at hq
    generalize c.rest = cs at *
    cases h with
    | left h =>
      obtain ⟨⟨⟨-⟩, -⟩⟩ := h
      simp at hq
    | right h => exact h

end Form

/-- A target holds no command. -/
theorem run_target (version : Version) (nested : Cursor → Step) :
    Rule.target.run ⟨Grammar.dialect version, nested⟩ =
      Rule.target.run ⟨Grammar.dialect version, Step.done⟩ := by
  funext c
  unfold Rule.target
  simp only [Rule.run, Rule.argument, run_selectorEntry]

theorem sound_target (version : Version) (nested : Cursor → Step) (c : Cursor) :
    (Rule.target.run ⟨Grammar.dialect version, nested⟩ c).Sound version c := by
  rw [run_target]
  exact Rule.sound_run (fun c => .done c) (.target : Rule.WellFormed _ _ none) (by simp)

/-- A target has an error if and only if the text does not begin with a target of the version. -/
theorem targetTokens_exact (version : Version) (nested : Cursor → Step) (c : Cursor) :
    (∀ t ∈ targetTokens version nested c, t.isError = false) ↔
      ∃ rest, Form.target version c.rest () rest := by
  have hexact := Form.exact_target version nested c
  constructor
  · intro h
    have honly : (Rule.target.run ⟨Grammar.dialect version, nested⟩ c).Only Event.IsClean := by
      intro e he
      cases e with
      | token t => simpa [Token.isError, Event.IsClean] using h t (Tokenized.mem_tokens.mpr he)
      | _ => trivial
    obtain ⟨_, rest, hx⟩ := hexact.sound ⟨(sound_target version nested c).faultless, honly⟩
    exact ⟨rest, hx⟩
  · rintro ⟨rest, hx⟩ t ht
    have hclean := (hexact.complete hx).clean.only _ (Tokenized.mem_tokens.mp ht)
    simpa [Token.isError, Event.IsClean] using hclean

end BedrockCommand

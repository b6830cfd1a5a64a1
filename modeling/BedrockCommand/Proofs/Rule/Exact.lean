import BedrockCommand.Proofs.Argument.Takes
import BedrockCommand.Proofs.Json.Value
/-!
Steps that are exact for a form: without an error they have read the form, and where the form
stands they read it without an error. One lemma for each way to make a step or a rule.
-/
namespace BedrockCommand

open Step

/-- A step that is done without an error, with some marks, in front of what is left of the text. -/
structure Step.Accepts (s : Step) (ms : List String) (ds : List Char) : Prop where
  clean : s.Clean
  outcome : s.outcome = .done
  marks : s.marks = ms
  rest : s.cursor.rest = ds

/-- A step from a cursor that reads a form of text and nothing else. What the form means decides on
the marks. -/
structure Form.ExactAt (F : Form α) (marks : α → List String) (c : Cursor) (s : Step) : Prop where
  sound : s.Clean → ∃ x ds, F c.rest x ds
  complete : ∀ {x ds}, F c.rest x ds → s.Accepts (marks x) ds

/-- Steps that read a form of text wherever they start. -/
def Form.Exact (F : Form α) (marks : α → List String) (f : Cursor → Step) : Prop :=
  ∀ c, F.ExactAt marks c (f c)

namespace Step

variable {s : Step} {f : Cursor → Step} {c d : Cursor} {ms ns : List String} {ds es : List Char}

theorem Clean.andThen (h : s.Clean) (hf : s.outcome = .done → (f s.cursor).Clean) :
    (s.andThen f).Clean := by
  by_cases hd : s.outcome = .done
  · refine ⟨fun g hg => (hf hd).faultless g (outcome_andThen_of_done hd ▸ hg), fun e he => ?_⟩
    rw [events_andThen_of_done hd] at he
    exact (List.mem_append.mp he).elim (h.only e) ((hf hd).only e)
  · rwa [andThen_of_ne_done hd]

namespace Accepts

theorem done (c : Cursor) : (Step.done c).Accepts [] c.rest :=
  ⟨⟨by simp [Step.done], .done c⟩, rfl, rfl, rfl⟩

theorem andThen (h : s.Accepts ms ds) (h' : (f s.cursor).Accepts ns es) :
    (s.andThen f).Accepts (ms ++ ns) es where
  clean := h.clean.andThen fun _ => h'.clean
  outcome := (outcome_andThen_of_done h.outcome).trans h'.outcome
  marks := by simp only [Step.andThen, h.outcome, h.marks, h'.marks]
  rest := by rw [cursor_andThen_of_done h.outcome, h'.rest]

theorem unmarked (h : s.Accepts ms ds) : s.unmarked.Accepts [] ds :=
  ⟨⟨h.clean.faultless, h.clean.only⟩, h.outcome, rfl, h.rest⟩

theorem settle (h : s.Accepts ms ds) : s.settle = s := by
  simp only [Step.settle, h.outcome]

theorem token {kind : TokenKind} (hk : kind ≠ .error) (value : TokenValue)
    (w : Option WarningKind) (h : c.Ahead d) :
    (Step.token (some kind) value w c d).Accepts [] d.rest := by
  rw [token_ahead kind value w h]
  refine ⟨⟨by simp, ?_⟩, rfl, rfl, rfl⟩
  exact List.forall_mem_cons.mpr ⟨hk, Only.warningEvents fun _ _ => trivial⟩

end Accepts

/-! ## Arguments -/

section

variable {a : Argument} {next : a.Answer → Cursor → Step} {x : a.Answer}

theorem clean_argument (h : (argument a c next).Clean) : (a.read c).kind ≠ some .error := by
  intro hk
  unfold argument at h
  simp only [hk] at h
  exact not_clean_token _ _ _ _ h.left

/-- An argument that is answered: its token, and what comes behind it. -/
theorem argument_eq (next : a.Answer → Cursor → Step) (ha : c.Ahead (a.read c).cursor)
    (hx : (a.read c).answer = some x) :
    ∃ kind, (a.read c).kind = some kind ∧ argument a c next =
      (token (some kind) (a.read c).value (a.read c).warning c (a.read c).cursor).andThen
        fun _ => next x (a.read c).cursor := by
  obtain ⟨kind, hk⟩ := a.exists_kind_read c
  refine ⟨kind, hk, ?_⟩
  unfold argument
  simp only [hk, hx, token_ahead kind _ _ ha, Step.andThen]

theorem Accepts.argument (ha : c.Ahead (a.read c).cursor) (hk : (a.read c).kind ≠ some .error)
    (hx : (a.read c).answer = some x) (h : (next x (a.read c).cursor).Accepts ms ds) :
    (Step.argument a c next).Accepts ms ds := by
  obtain ⟨kind, hkind, heq⟩ := argument_eq next ha hx
  have hne : kind ≠ .error := fun e => hk (e ▸ hkind)
  rw [heq]
  exact (Accepts.token hne _ _ ha).andThen h

theorem Clean.of_argument (ha : c.Ahead (a.read c).cursor) (hx : (a.read c).answer = some x)
    (h : (Step.argument a c next).Clean) : (next x (a.read c).cursor).Clean := by
  obtain ⟨kind, hkind, heq⟩ := argument_eq next ha hx
  rw [heq, token_ahead kind _ _ ha] at h
  exact h.right rfl

end

end Step

namespace Form

variable {F G : Form α} {marks : α → List String} {f : Cursor → Step} {env : Env} {c : Cursor}
  {s : Step}

theorem ExactAt.congr (h : F.ExactAt marks c s)
    (hFG : ∀ {x ds}, F c.rest x ds ↔ G c.rest x ds) : G.ExactAt marks c s where
  sound hs := by
    obtain ⟨x, ds, hF⟩ := h.sound hs
    exact ⟨x, ds, hFG.mp hF⟩
  complete hG := h.complete (hFG.mpr hG)

theorem ExactAt.any (h : F.ExactAt (fun _ => []) c s) : (any F).ExactAt (fun _ => []) c s where
  sound hs := by
    obtain ⟨x, ds, hF⟩ := h.sound hs
    exact ⟨(), ds, .intro hF⟩
  complete hF := by
    obtain ⟨hF⟩ := hF
    exact h.complete hF

/-- An argument, and a step for its answer. -/
theorem exactAt_seq {a : Argument} {answer : α → a.Answer} {G : α → Form Unit}
    {next : a.Answer → Cursor → Step} (h : a.TakesAt F answer c)
    (ha : c.Ahead (a.read c).cursor)
    (hn : ∀ {x ds}, F c.rest x ds → (G x).Exact (fun _ => marks x) (next (answer x))) :
    (F.seq G).ExactAt marks c (argument a c next) where
  sound hc := by
    obtain ⟨x, ds, hF⟩ := h.sound (clean_argument hc)
    obtain ⟨-, hx, rfl⟩ := h.complete hF
    obtain ⟨_, es, hG⟩ := (hn hF _).sound (hc.of_argument ha hx)
    exact ⟨x, es, .intro hF hG⟩
  complete hc := by
    obtain ⟨hF, hG⟩ := hc
    obtain ⟨hk, hx, rfl⟩ := h.complete hF
    exact .argument ha hk hx ((hn hF _).complete hG)

theorem exact_argument {a : Argument} {answer : α → a.Answer} (h : a.Takes F answer)
    (hfit : a.FitsAfter none) : (any F).Exact (fun _ => []) ((Rule.argument a).run env) := by
  refine fun c => ⟨fun hc => ?_, fun hc => ?_⟩
  · obtain ⟨x, ds, hF⟩ := (h c).sound (clean_argument hc)
    exact ⟨(), ds, .intro hF⟩
  · obtain ⟨hF⟩ := hc
    obtain ⟨hk, hx, rfl⟩ := (h c).complete hF
    exact .argument (a.ahead_read hfit c (by simp)) hk hx (.done _)

/-! ## Characters and questions -/

theorem run_expect {x : Char} {next : Rule} (h : c.isAt x = true) :
    (Rule.expect x next).run env c = next.run env c.advance.skipSpaces := by
  change (expect x c).andThen (next.run env) = _
  rw [expect, Reader.symbol_apply, if_pos h]
  rfl

theorem exact_expect {x : Char} {next : Rule} (h : F.Exact marks (next.run env)) :
    (symbol x F).Exact marks ((Rule.expect x next).run env) := by
  refine fun c => ⟨fun hc => ?_, fun {y ds} hF => ?_⟩
  · obtain ⟨d, hx, -⟩ := expect_sound hc.left
    obtain ⟨cs, hr, -⟩ := hx.rest
    rw [run_expect hx.isAt] at hc
    obtain ⟨y, ds, hF⟩ := (h _).sound hc
    rw [Cursor.rest_skipSpaces, Cursor.advance_of_rest hr] at hF
    rw [hr]
    exact ⟨y, ds, .intro hF⟩
  · obtain ⟨cs, p⟩ := c
    obtain ⟨hF⟩ := hF
    rw [run_expect (Cursor.isAt_iff.mpr ⟨_, rfl⟩)]
    refine (h _).complete ?_
    rwa [Cursor.rest_skipSpaces, Cursor.advance_of_rest rfl]

theorem exact_negation {next : Rule} (h : F.Exact marks (next.run env)) :
    (negatable F).Exact marks ((Rule.negation next).run env) := by
  refine fun c => ⟨fun hc => ?_, fun hF => (h _).complete ((Reader.negatable_iff c).mp hF)⟩
  obtain ⟨x, ds, hF⟩ := (h _).sound hc
  exact ⟨x, ds, (Reader.negatable_iff c).mpr hF⟩

theorem exact_mark {name : String} {next : Rule} (h : F.Exact (fun _ => []) (next.run env)) :
    F.Exact (fun _ => [name]) ((Rule.mark name next).run env) := by
  refine fun c => ⟨fun hc => (h c).sound (hc.right rfl), fun hF => ?_⟩
  have hmark : Step.Accepts ⟨[], [name], .done, c⟩ [name] c.rest :=
    ⟨⟨by simp, by simp [Step.Only]⟩, rfl, rfl, rfl⟩
  exact hmark.andThen ((h c).complete hF)

/-- A form that a question tells how to read. -/
theorem exact_look {q : Look} {yes no : Rule}
    (hyes : ∀ {c}, q.holds c = true → F.ExactAt marks c (yes.run env c))
    (hno : ∀ {c}, q.holds c = false → F.ExactAt marks c (no.run env c)) :
    F.Exact marks ((Rule.look q yes no).run env) := by
  intro c
  rw [Rule.run_look]
  split
  · next h => exact hyes h
  · next h => exact hno (Bool.eq_false_iff.mpr h)

/-- One form or another, told by a question. -/
theorem exact_either {q : Look} {yes no : Rule} (hF : F.Exact marks (yes.run env))
    (hG : G.Exact marks (no.run env))
    (hyes : ∀ {c x ds}, F c.rest x ds → q.holds c = true)
    (hno : ∀ {c x ds}, G c.rest x ds → q.holds c = false) :
    (either F G).Exact marks ((Rule.look q yes no).run env) := by
  refine exact_look (fun {c} hq => (hF c).congr ⟨.left, fun h => ?_⟩) fun {c} hq =>
    (hG c).congr ⟨.right, fun h => ?_⟩
  · cases h with
    | left h => exact h
    | right h => simp [hno h] at hq
  · cases h with
    | left h => simp [hyes h] at hq
    | right h => exact h

/-! ## Lists -/

variable {b : Brackets} {version : Version} {fuel : Nat}

/-- A form that does not begin with the bracket that closes a list. -/
def BeginsInside (b : Brackets) (F : Form α) : Prop :=
  ∀ cs x ds, F cs x ds → cs.head? ≠ some b.closing

theorem BeginsInside.commas (hF : F.BeginsInside b) : (commas F).BeginsInside b := by
  intro cs xs ds h
  cases h with
  | one h | more h => exact hF _ _ _ h

theorem elements_sound (h : F.Exact marks f) (hc : (elements b f fuel c).Clean) :
    ∃ xs ds, commas F (afterSpaces c.rest) xs (b.closing :: ds) := by
  induction fuel generalizing c with
  | zero => exact absurd hc (not_clean_fail _ _)
  | succ fuel ih =>
    unfold elements at hc
    simp only at hc
    have hs : (f c.skipSpaces).Clean := by
      split at hc
      · exact hc
      · exact hc.left.of_settle
    obtain ⟨x, ds, hF⟩ := (h _).sound hs
    have hd := (h _).complete hF
    rw [if_neg (by simp [hd.outcome]), hd.settle] at hc
    rw [Cursor.rest_skipSpaces] at hF
    rcases afterElement_sound (hc.right hd.outcome) with ⟨e, hclose, -⟩ | ⟨hcomma, hnext, -⟩
    · obtain ⟨es, hr, -⟩ := hclose.rest
      obtain rfl := hd.rest.symm.trans hr
      exact ⟨[x], es, .one hF⟩
    · obtain ⟨es, hr⟩ := Cursor.isAt_iff.mp hcomma
      obtain rfl := hd.rest.symm.trans hr
      obtain ⟨xs, ds, ht⟩ := ih hnext
      rw [Cursor.advance_of_rest hr] at ht
      exact ⟨x :: xs, ds, .more hF ht⟩

/-- Behind the last element stands the closing bracket. -/
theorem afterElement_accepts {next : Cursor → Step} {ds : List Char}
    (hr : c.rest = b.closing :: ds) :
    (afterElement b next (fuel + 1) c).Accepts [] (afterSpaces ds) := by
  have hdone := Accepts.done c.advance.skipSpaces
  rw [Cursor.rest_skipSpaces, Cursor.advance_of_rest hr] at hdone
  unfold afterElement
  rwa [if_pos (Cursor.isAt_iff.mpr ⟨ds, hr⟩), close, Cursor.advance_of_rest hr]

/-- A list begins with an element, and not with the bracket that closes it. -/
theorem isAt_closing (hF : F.BeginsInside b) {xs : List α} {ds : List Char}
    (hx : commas F c.rest xs ds) : c.isAt b.closing = false := by
  refine Bool.eq_false_iff.mpr fun hat => hF.commas _ _ _ hx ?_
  obtain ⟨rest, hr⟩ := Cursor.isAt_iff.mp hat
  rw [hr]
  rfl

theorem elements_complete (h : F.Exact marks f) (hF : F.BeginsInside b)
    (hs : ∀ d, (f d).Sound version d) {xs : List α} {ds : List Char}
    (hx : commas F c.skipSpaces.rest xs (b.closing :: ds)) (hf : c.line.length < fuel) :
    (elements b f fuel c).Accepts (xs.flatMap marks) (afterSpaces ds) := by
  induction fuel generalizing c xs with
  | zero => omega
  | succ fuel ih =>
    unfold elements
    simp only
    generalize hcs : c.skipSpaces.rest = cs at hx
    cases hx with
    | one hx =>
      have hd := (h c.skipSpaces).complete (hcs ▸ hx)
      rw [if_neg (by simp [hd.outcome]), hd.settle, List.flatMap_singleton]
      exact List.append_nil (marks _) ▸ hd.andThen (afterElement_accepts hd.rest)
    | @more _ es _ x xs hx ht =>
      have hd := (h c.skipSpaces).complete (hcs ▸ hx)
      have hcomma := Cursor.isAt_iff.mpr ⟨es, hd.rest⟩
      -- Each round moves past a comma, so that the fuel suffices.
      have hlt := Cursor.length_line_advance (by decide) hcomma
      have hle := (hs c.skipSpaces).ahead.length_line_le
      have hle' := c.ahead_skipSpaces.length_line_le
      have hnext : (f c.skipSpaces).cursor.advance.skipSpaces.rest = afterSpaces es := by
        rw [Cursor.rest_skipSpaces, Cursor.advance_of_rest hd.rest]
      rw [← hnext] at ht
      rw [if_neg (by simp [hd.outcome]), hd.settle, List.flatMap_cons]
      refine hd.andThen ?_
      rw [afterElement_comma (.of_isAt hcomma) (Cursor.head?_skipSpaces _) (isAt_closing hF ht)]
      exact ih ht (by omega)

/-- Elements with commas between them in brackets, at least one of them. -/
theorem exact_list (h : F.Exact marks f) (hF : F.BeginsInside b)
    (hs : ∀ d, (f d).Sound version d) :
    (list b F).Exact (List.flatMap marks) (Step.list b false f) := by
  refine fun c => ⟨fun hc => ?_, fun {xs ds} hx => ?_⟩
  · unfold Step.list at hc
    split at hc
    · exact absurd hc.left (not_clean_error _ _ _)
    · next ho =>
      obtain ⟨cs, hr⟩ := Cursor.isAt_iff.mp (by simpa using ho)
      dsimp only at hc
      split at hc
      · exact absurd hc.left (not_clean_error _ _ _)
      · obtain ⟨xs, ds, hx⟩ := elements_sound h hc
        rw [← Cursor.rest_skipSpaces, Cursor.skipSpaces_skipSpaces, Cursor.rest_skipSpaces,
          Cursor.advance_of_rest hr] at hx
        rw [hr]
        exact ⟨xs, _, .intro hx⟩
  · obtain ⟨_, p⟩ := c
    obtain @⟨cs, ds, _, hx⟩ := hx
    have hskip : (Cursor.mk (b.opening :: cs) p).advance.skipSpaces.rest = afterSpaces cs := by
      rw [Cursor.rest_skipSpaces, Cursor.advance_of_rest rfl]
    rw [← hskip] at hx
    unfold Step.list
    simp only [Cursor.isAt_cons, decide_true, Bool.not_true, Bool.false_eq_true, if_false,
      isAt_closing hF hx]
    refine elements_complete h hF hs ?_ (Nat.lt_succ_self _)
    rwa [Cursor.skipSpaces_skipSpaces]

end Form
end BedrockCommand

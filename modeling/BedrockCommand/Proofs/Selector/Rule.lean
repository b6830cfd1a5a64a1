import BedrockCommand.Grammar.Selector
import BedrockCommand.Proofs.Argument.Reading
import BedrockCommand.Proofs.Rule.Run
import BedrockCommand.Proofs.Selector.Reader
/-!
Rules inside an option: what they report and where they end does not depend on what follows the
option.
-/
namespace BedrockCommand

variable {w : Places} {opened : List Brackets} {c d : Cursor}

theorem Cursor.follow_inside : Follow (Inside w opened) w.move :=
  Inside.position

/-! ## Arguments -/

/-- From two cursors, two readings that differ in nothing but where they end, inside the same
option. -/
def Reading.InsideAt (w : Places) (opened : List Brackets) (f : Cursor → Reading α)
    (c d : Cursor) : Prop :=
  f d = (f c).endAt (f d).cursor ∧ Cursor.Inside w opened (f c).cursor (f d).cursor

theorem Reading.Stays.insideAt {f : Cursor → Reading α} (hf : Stays f)
    (h : Cursor.Inside w opened c d) : InsideAt w opened f c d := by
  have hc : (f c).cursor = c := congrArg Reading.cursor (hf c c)
  have hd : (f d).cursor = d := congrArg Reading.cursor (hf d d)
  exact ⟨hd.symm ▸ hf c d, by rwa [hc, hd]⟩

theorem Reading.insideAt_of {r : Reader β} (hr : r.InsideAt w opened c d)
    {judge : β → Cursor → Reading α} (hj : ∀ x c' d', r c = (.ok x, c') →
      Cursor.Inside w opened c' d' → InsideAt w opened (judge x) c' d') :
    InsideAt w opened (of r judge) c d := by
  obtain ⟨hv, hi⟩ := hr
  unfold InsideAt of
  rcases hrc : r c with ⟨v, c'⟩
  rcases hrd : r d with ⟨v', d'⟩
  simp only [hrc, hrd] at hv hi
  obtain rfl := hv
  cases v' with
  | error e => exact ⟨rfl, hi⟩
  | ok x => exact hj x c' d' hrc hi

theorem Reading.insideAt_of_stays {r : Reader β} (hr : r.StaysInside)
    (h : Cursor.Inside w opened c d) {judge : β → Cursor → Reading α}
    (hj : ∀ x, Stays (judge x)) : InsideAt w opened (of r judge) c d :=
  insideAt_of (hr w opened c d h) fun x _ _ _ => (hj x).insideAt

/-- The arguments that the values of selector options are made of. What follows an unknown key of
`hasitem` is left to the curly brackets that have to be around it. -/
def Argument.StaysIn : Argument → Option Brackets → Prop
  | identifier, _ | word, _ | text _, _ | integer .., _ | number _, _ | range, _ | keyword _, _
  | selectorCoordinate, _ | gameMode, _ | permissionState, _ | hasitemData, _ => True
  | hasitemKey, around => around = some .curly
  | _, _ => False

open Reading Reader in
theorem Argument.insideAt_read {a : Argument} (ha : a.StaysIn opened.head?)
    (h : Cursor.Inside w opened c d) : InsideAt w opened a.read c d := by
  cases a with
  | identifier => exact insideAt_of_stays staysInside_identifier h fun _ => stays_accept
  | word => exact insideAt_of_stays staysInside_word h fun _ => stays_accept
  | text role => exact insideAt_of_stays staysInside_text h fun _ => stays_accept
  | integer least greatest =>
    exact insideAt_of_stays staysInside_integer h fun _ => stays_acceptIf
  | number bounds => exact insideAt_of_stays staysInside_number h fun _ => stays_acceptIf
  | range => exact insideAt_of_stays staysInside_range h fun _ => stays_accept
  | keyword allowed =>
    exact insideAt_of_stays staysInside_word h fun _ => stays_accept.ite stays_refuse _
  | selectorCoordinate =>
    exact insideAt_of_stays staysInside_coordinate h fun _ => stays_acceptIf
  | gameMode => exact insideAt_of_stays staysInside_integer h fun _ => stays_acceptIf
  | permissionState => exact insideAt_of_stays staysInside_word h fun _ => stays_acceptIf
  | hasitemData =>
    exact insideAt_of_stays staysInside_integer h fun _ => stays_acceptIf.warnIf _ _
  | hasitemKey =>
    refine insideAt_of (staysInside_word w opened c d h) fun key c' d' _ h' => ?_
    split
    · exact stays_accept.insideAt h'
    · obtain ⟨opened, rfl⟩ : ∃ outer, opened = .curly :: outer := by
        cases opened with
        | nil => simp [StaysIn] at ha
        | cons b outer => exact ⟨outer, by simpa [StaysIn] using ha⟩
      exact stays_reject.insideAt h'.toSeparator
  | _ => exact absurd ha (by simp [StaysIn])

/-- Such an argument has to be asked nothing before it. -/
theorem Argument.StaysIn.fitsAfter {a : Argument} {around : Option Brackets}
    (h : a.StaysIn around) : a.FitsAfter none := by
  cases a with
  | selectorVariable | comparison | jsonConstant => exact absurd h (by simp [StaysIn])
  | _ => trivial

/-! ## Rules -/

namespace Rule

/-- A rule for a part of an option, with some brackets around it. -/
def StaysIn : Rule → Option Brackets → Prop
  | done, _ => True
  | read a next, around => a.StaysIn around ∧ ∀ x, (next x).StaysIn around
  | expect x next, around => x ∉ listMarks ∧ next.StaysIn around
  | spaces next, around => next.StaysIn around
  | negation next, around => next.StaysIn around
  | look q yes no, around =>
    Cursor.SeesInside q.holds ∧ yes.StaysIn around ∧ no.StaysIn around
  | complain _ next, around => next.StaysIn around
  | list b _ element next, around =>
    element.StaysIn (some b) ∧ ∀ entries, (next entries).StaysIn around
  | mark _ next, around => next.StaysIn around
  | _, _ => False

/-- A rule for a part of an option reports the same in both places. -/
theorem agree_run {version : Version} {env : Env}
    (hsound : ∀ c, (env.nested c).Sound version c) {r : Rule} {known : Option Look}
    (hr : r.WellFormed env.dialect known) (hi : r.StaysIn opened.head?)
    (h : Cursor.Inside w opened c d) :
    Step.Agree (Cursor.Inside w opened) w.move (r.run env c) (r.run env d) := by
  induction r generalizing known opened c d with
  | done => exact .done h
  | read a next ih =>
    obtain ⟨heq, hcursor⟩ := Argument.insideAt_read hi.1 h
    exact .argument Cursor.follow_inside h heq hcursor
      (a.ahead_read hi.1.fitsAfter c (by simp)) (a.ahead_read hi.1.fitsAfter d (by simp))
      fun x hx => ih x (hr.2 x (Argument.answers_of_read hx)) (hi.2 x) hcursor
  | expect x next ih =>
    have hexpect : Step.Agree (Cursor.Inside w opened) w.move (Step.expect x c) (Step.expect x d) :=
      .expect Cursor.follow_inside (h.isAt_of_notMem hi.1) h fun hat =>
        (h.advance_neutral hi.1 hat).skipSpaces
    exact hexpect.andThen (ih hr.2 hi.2)
  | spaces next ih => exact ih hr hi h.skipSpaces
  | negation next ih =>
    exact ih hr hi (Reader.staysInside_negation w opened c d h).2
  | look q yes no ihy ihn =>
    unfold run
    rw [h.sees hi.1]
    split
    · exact ihy hr.2.1 hi.2.1 h
    · exact ihn hr.2.2 hi.2.2 h
  | complain e next ih =>
    exact (Step.Agree.complain Cursor.follow_inside e h).andThen (ih hr hi)
  | list b mayBeEmpty element next ihe ih =>
    have hlist : Step.Agree (Cursor.Inside w opened) w.move
        (Step.list b mayBeEmpty (element.run env) c) (Step.list b mayBeEmpty (element.run env) d) :=
      .list Cursor.follow_inside Cursor.follow_inside (Cursor.nests_inside b)
        (ihe hr.1 hi.1) (fun d => sound_run hsound hr.1 (by simp))
        (fun d => sound_run hsound hr.1 (by simp)) h
    unfold run
    simp only [hlist.marks]
    exact hlist.unmarked.andThen (ih _ (hr.2 _) (hi.2 _))
  | mark name next ih =>
    have hmark : Step.Agree (Cursor.Inside w opened) w.move ⟨[], [name], .done, c⟩
      ⟨[], [name], .done, d⟩ := ⟨rfl, rfl, rfl, h⟩
    exact hmark.andThen (ih hr hi)
  | _ => exact absurd hi (by simp [StaysIn])

/-- There is no command inside an option. -/
theorem StaysIn.run_nested {r : Rule} {around : Option Brackets} (h : r.StaysIn around)
    (dialect : Dialect) (nested nested' : Cursor → Step) :
    r.run ⟨dialect, nested⟩ = r.run ⟨dialect, nested'⟩ := by
  induction r generalizing around with
  | done => rfl
  | read a next ih =>
    funext c
    simp only [run, fun x => ih x (h.2 x)]
  | expect x next ih => exact funext fun c => by simp only [run, ih h.2]
  | spaces next ih | negation next ih | complain e next ih | mark name next ih =>
    exact funext fun c => by simp only [run, ih h]
  | look q yes no ihy ihn => exact funext fun c => by simp only [run, ihy h.2.1, ihn h.2.2]
  | list b mayBeEmpty element next ihe ih =>
    funext c
    simp only [run, ihe h.1, fun entries => ih entries (h.2 entries)]
  | _ => exact absurd h (by simp [StaysIn])

/-! ## The values of options -/

section

variable {around : Option Brackets}

theorem StaysIn.argument {a : Argument} (h : a.StaysIn around) : (argument a).StaysIn around :=
  ⟨h, fun _ => trivial⟩

theorem StaysIn.scores : scores.StaysIn around :=
  ⟨⟨trivial, fun _ => ⟨by decide, .argument trivial⟩⟩, fun _ => trivial⟩

theorem StaysIn.haspermission : haspermission.StaysIn around :=
  ⟨⟨trivial, fun _ => ⟨by decide, .argument trivial⟩⟩, fun _ => trivial⟩

theorem StaysIn.hasitemObject : hasitemObject.StaysIn around := by
  refine ⟨⟨rfl, fun key => ?_⟩, fun entries => ?_⟩
  · dsimp only
    split
    · trivial
    all_goals exact ⟨by decide, .argument trivial⟩
  · dsimp only
    split <;> trivial

theorem StaysIn.hasitem : hasitem.StaysIn around :=
  ⟨Cursor.seesInside_isAt (by decide) (by decide), ⟨.hasitemObject, fun _ => trivial⟩,
    .hasitemObject⟩

theorem StaysIn.gameMode : gameMode.StaysIn around :=
  ⟨Reader.seesInside_startsNumber, .argument trivial, .argument trivial⟩

theorem StaysIn.selectorTag : selectorTag.StaysIn around :=
  ⟨(Cursor.seesInside_terminated.map₂ (Cursor.seesInside_isAt (by decide) (by decide))
    fun b b' => !b || b'), .argument trivial, trivial⟩

theorem staysIn_selectorValues : ∀ entry ∈ selectorValues, entry.2.StaysIn around := by
  unfold selectorValues
  simp only [List.forall_mem_cons, List.not_mem_nil, false_implies, implies_true, and_true]
  exact ⟨.argument trivial, .argument trivial, .argument trivial, .argument trivial,
    .argument trivial, .argument trivial, .argument trivial, .argument trivial, .scores,
    .selectorTag, .argument trivial, .argument trivial, .argument trivial, .argument trivial,
    .argument trivial, .argument trivial, .argument trivial, .hasitem, .argument trivial,
    .argument trivial, .gameMode, .argument trivial, .haspermission⟩

end

end Rule
end BedrockCommand

import BedrockCommand.Proofs.Grammar.Regular
/-!
Runs with a counter. The program counts how deep it is in commands inside commands, or in
containers inside containers, by a counter that goes up where such a thing begins and down where it
ends; the counter is part of the state, and whatever runs may change it. Here a run passes the
counter on and keeps a record of the calls that look at it. Without the counter it is the run of
the rule with what lies inside taken as given, and a run that goes up and down as it should leaves
the counter as it was.
-/
namespace BedrockCommand

/-- A call of what looks at the counter: the one for a command inside a command, or for a container
inside a container. -/
structure Call where
  /-- Where those around it that are counted begin, the innermost first. -/
  around : List Cursor
  /-- The counter. -/
  depth : Nat
  /-- What has been reported before it. -/
  front : List Event
  place : Cursor
  /-- What comes of it. -/
  step : Step

namespace Call

/-- The same call in a run that has reported something before. -/
def after (front : List Event) (call : Call) : Call :=
  { call with front := front ++ call.front }

/-- The same call inside something that is counted. -/
def within (c : Cursor) (call : Call) : Call :=
  { call with around := call.around ++ [c] }

end Call

/-- A step, the counter behind it, and the calls on the way. -/
structure Counted where
  step : Step
  depth : Nat
  calls : List Call

/-- What runs from a counter and a cursor. -/
abbrev Counting := Nat → Cursor → Counted

namespace Counted

/-- A step that does not touch the counter. -/
def of (s : Step) (n : Nat) : Counted := ⟨s, n, []⟩

/-- One after another, unless the first one gives up or fails. -/
def andThen (s : Counted) (next : Counting) : Counted :=
  match s.step.outcome with
  | .done =>
    let t := next s.depth s.step.cursor
    { step := s.step.andThen fun _ => t.step
      depth := t.depth
      calls := s.calls ++ t.calls.map (·.after s.step.events) }
  | _ => s

def settle (s : Counted) : Counted := { s with step := s.step.settle }

def unmarked (s : Counted) : Counted := { s with step := s.step.unmarked }

def argument (a : Argument) (n : Nat) (c : Cursor) (next : a.Answer → Counting) : Counted :=
  let r := a.read c
  (of (Step.token r.kind r.value r.warning c r.cursor) n).andThen fun n c =>
    match r.answer with
    | some x => next x n c
    | none => of (.halt c) n

def afterElement (b : Brackets) (next : Counting) : Nat → Counting
  | 0, n, c => of (.fail .endless c) n
  | fuel + 1, n, c =>
    if c.isAt b.closing then of (.close c) n
    else if c.isAt ',' then
      if Step.isTrailing b.closing c then
        of ((Step.error .trailingComma c c.advance).andThen fun c => .close c.skipSpaces) n
      else next n c.advance
    else if !c.lineContinues then of (.refuse (.unclosedBracket b.closing) c) n
    else
      (of (.error (.expectedSeparator b.closing) c (c.toSeparator b.closing)) n).andThen
        (afterElement b next fuel)

def elements (b : Brackets) (element : Counting) : Nat → Counting
  | 0, n, c => of (.fail .endless c) n
  | fuel + 1, n, c =>
    let s := element n c.skipSpaces
    if s.step.outcome = .halted ∧ s.step.cursor.lineContinues = false then s
    else
      s.settle.andThen fun n c =>
        afterElement b (elements b element fuel) (c.line.length + 1) n c

def list (b : Brackets) (mayBeEmpty : Bool) (element : Counting) (n : Nat) (c : Cursor) :
    Counted :=
  if !c.isAt b.opening then of (.refuse (.expectedChar b.opening) c) n
  else
    let c := c.advance.skipSpaces
    if c.isAt b.closing then
      of (if mayBeEmpty then .close c else (Step.complain .emptyList c).andThen .close) n
    else elements b element (c.line.length + 1) n c

def clauses (keywords : List String) (clause : String → Counting)
    (finish : Option String → Counting) : Nat → Option String → Counting
  | 0, _, n, c => of (.fail .endless c) n
  | fuel + 1, last, n, c =>
    if !c.lineContinues then finish last n c
    else
      argument (.keyword keywords) n c fun w n c =>
        (clause w n c).andThen (clauses keywords clause finish fuel (some w))

def whole (s : Counted) : Counted :=
  s.settle.andThen fun n c => of (if c.atEnd then .done c else .sweep .tooMuchJson c) n

end Counted

/-- Runs a rule from a counter, with what runs inside. -/
def Rule.count (d : Dialect) (inside : Counting) : Rule → Counting
  | done, n, c => .of (.done c) n
  | read a next, n, c => Counted.argument a n c fun x => (next x).count d inside
  | expect x next, n, c => (Counted.of (.expect x c) n).andThen (next.count d inside)
  | spaces next, n, c => next.count d inside n c.skipSpaces
  | negation next, n, c => next.count d inside n (Reader.negation c).2
  | look q yes no, n, c => if q.holds c then yes.count d inside n c else no.count d inside n c
  | complain e next, n, c => (Counted.of (.complain e c) n).andThen (next.count d inside)
  | refuse e, n, c => .of (.refuse e c) n
  | refuseLine e, n, c => .of ((Step.sweep e c).andThen .halt) n
  | list b mayBeEmpty element next, n, c =>
    let s := Counted.list b mayBeEmpty (element.count d inside) n c
    s.unmarked.andThen ((next s.step.marks).count d inside)
  | mark name next, n, c => (Counted.of ⟨[], [name], .done, c⟩ n).andThen (next.count d inside)
  | clauses keywords clause next, n, c =>
    Counted.clauses keywords (fun w => (clause w).count d inside)
      (fun w => (next w).count d inside) (c.line.length + 1) none n c
  | nested next, n, c => (inside n c).andThen (next.count d inside)
  | embedded inner next, n, c =>
    let s := (inner.count d inside n ⟨Text.trimEnd c.line, c.position⟩).whole
    (Counted.andThen { s with step := { s.step with cursor := c.toLineEnd } } fun n c' =>
      .of (.report (.json c.position) c') n).andThen (next.count d inside)
  | noteTooDeep next, n, c =>
    (Counted.of (.report (.notice (.jsonTooDeep c.position maxNesting)) c) n).andThen
      (next.count d inside)
  | ask next, n, c => (next d).count d inside n c
  | fault f, n, c => .of (.fail f c) n

/-! ## The run without the counter -/

/-- What is said about calls that does not change with what was reported before. -/
def Call.Stable (P : Call → Prop) : Prop :=
  ∀ front call, P call → P (call.after front)

/-- A run that is a step apart from the counter, that leaves the counter as it was, and of which
every call has its place among the events. -/
structure Counted.Tracks (P : Call → Prop) (n : Nat) (t : Step) (s : Counted) : Prop where
  step : s.step = t
  depth : s.depth = n
  calls : ∀ call ∈ s.calls, P call
  placed : ∀ call ∈ s.calls, call.front ++ call.step.events <+: s.step.events

namespace Counted

variable {s : Counted} {next : Counting}

theorem andThen_of_done (h : s.step.outcome = .done) : s.andThen next =
    { step := s.step.andThen fun _ => (next s.depth s.step.cursor).step
      depth := (next s.depth s.step.cursor).depth
      calls := s.calls ++ (next s.depth s.step.cursor).calls.map (·.after s.step.events) } := by
  simp only [andThen, h]

theorem andThen_of_ne_done (h : s.step.outcome ≠ .done) : s.andThen next = s := by
  unfold andThen
  split
  · next hd => exact absurd hd h
  · rfl

end Counted

namespace Counted.Tracks

variable {P : Call → Prop} {n : Nat} {s : Counted} {t : Step} {f : Cursor → Step} {next : Counting}
  {c : Cursor}

theorem of (t : Step) (n : Nat) : Tracks P n t (.of t n) :=
  ⟨rfl, rfl, List.forall_mem_nil _, List.forall_mem_nil _⟩

theorem andThen (hP : Call.Stable P) (hs : Tracks P n t s)
    (hn : ∀ c, Tracks P n (f c) (next n c)) : Tracks P n (t.andThen f) (s.andThen next) := by
  obtain ⟨rfl, rfl, hcalls, hplaced⟩ := hs
  by_cases hd : s.step.outcome = .done
  · obtain ⟨hstep, hdepth, hcalls', hplaced'⟩ := hn s.step.cursor
    rw [Counted.andThen_of_done hd]
    refine ⟨by simp only [Step.andThen, hd, hstep], hdepth, ?_, ?_⟩
    · intro call hcall
      rcases List.mem_append.mp hcall with hcall | hcall
      · exact hcalls call hcall
      · obtain ⟨inner, hinner, rfl⟩ := List.mem_map.mp hcall
        exact hP _ _ (hcalls' inner hinner)
    · intro call hcall
      rw [Step.events_andThen_of_done hd]
      rcases List.mem_append.mp hcall with hcall | hcall
      · exact (hplaced call hcall).trans (List.prefix_append ..)
      · obtain ⟨inner, hinner, rfl⟩ := List.mem_map.mp hcall
        rw [Call.after, List.append_assoc]
        exact (List.prefix_append_right_inj _).mpr (hplaced' inner hinner)
  · rw [Counted.andThen_of_ne_done hd, Step.andThen_of_ne_done hd]
    exact ⟨rfl, rfl, hcalls, hplaced⟩

theorem settle (hs : Tracks P n t s) : Tracks P n t.settle s.settle := by
  obtain ⟨rfl, rfl, hcalls, hplaced⟩ := hs
  exact ⟨rfl, rfl, hcalls, by simpa [Counted.settle] using hplaced⟩

theorem unmarked (hs : Tracks P n t s) : Tracks P n t.unmarked s.unmarked := by
  obtain ⟨rfl, rfl, hcalls, hplaced⟩ := hs
  exact ⟨rfl, rfl, hcalls, hplaced⟩

theorem moved (hs : Tracks P n t s) (c : Cursor) :
    Tracks P n { t with cursor := c } { s with step := { s.step with cursor := c } } := by
  obtain ⟨rfl, rfl, hcalls, hplaced⟩ := hs
  exact ⟨rfl, rfl, hcalls, hplaced⟩

section

variable (hP : Call.Stable P)
include hP

theorem argument {a : Argument} {f : a.Answer → Cursor → Step} {next : a.Answer → Counting}
    (hn : ∀ x c, Tracks P n (f x c) (next x n c)) (c : Cursor) :
    Tracks P n (Step.argument a c f) (Counted.argument a n c next) := by
  unfold Step.argument Counted.argument
  refine andThen hP (of _ n) fun d => ?_
  cases (a.read c).answer with
  | some x => exact hn x d
  | none => exact of _ n

theorem afterElement {b : Brackets} (hn : ∀ c, Tracks P n (f c) (next n c)) (fuel : Nat)
    (c : Cursor) : Tracks P n (Step.afterElement b f fuel c)
      (Counted.afterElement b next fuel n c) := by
  induction fuel generalizing c with
  | zero => exact of _ n
  | succ fuel ih =>
    unfold Step.afterElement Counted.afterElement
    split
    · exact of _ n
    split
    · split
      · exact of _ n
      · exact hn _
    split
    · exact of _ n
    · exact andThen hP (of _ n) ih

theorem elements {b : Brackets} (hn : ∀ c, Tracks P n (f c) (next n c)) (fuel : Nat)
    (c : Cursor) : Tracks P n (Step.elements b f fuel c) (Counted.elements b next fuel n c) := by
  induction fuel generalizing c with
  | zero => exact of _ n
  | succ fuel ih =>
    have hs := hn c.skipSpaces
    unfold Step.elements Counted.elements
    simp only [hs.step]
    split
    · exact hs
    · exact andThen hP hs.settle fun d => afterElement hP ih _ d

theorem list {b : Brackets} {mayBeEmpty : Bool} (hn : ∀ c, Tracks P n (f c) (next n c))
    (c : Cursor) : Tracks P n (Step.list b mayBeEmpty f c)
      (Counted.list b mayBeEmpty next n c) := by
  unfold Step.list Counted.list
  split
  · exact of _ n
  simp only
  split
  · exact of _ n
  · exact elements hP hn _ _

theorem clauses {keywords : List String} {clause : String → Cursor → Step}
    {finish : Option String → Cursor → Step} {clause' : String → Counting}
    {finish' : Option String → Counting} (hc : ∀ w c, Tracks P n (clause w c) (clause' w n c))
    (hf : ∀ w c, Tracks P n (finish w c) (finish' w n c)) (fuel : Nat) (last : Option String)
    (c : Cursor) : Tracks P n (Step.clauses keywords clause finish fuel last c)
      (Counted.clauses keywords clause' finish' fuel last n c) := by
  induction fuel generalizing last c with
  | zero => exact of _ n
  | succ fuel ih =>
    unfold Step.clauses Counted.clauses
    split
    · exact hf last c
    · exact argument hP (fun w d => andThen hP (hc w d) (ih (some w))) c

theorem whole (hs : Tracks P n t s) : Tracks P n t.whole s.whole :=
  andThen hP hs.settle fun _ => of _ n

end

end Counted.Tracks

/-- A rule with a counter runs as without it and leaves the counter as it was, if what runs inside
does so. Its calls are those that are made inside. -/
theorem Rule.tracks_count {P : Call → Prop} (hP : Call.Stable P) {d : Dialect} {n : Nat}
    {inside : Counting} {f : Cursor → Step} {nests : Prop}
    (hn : nests → ∀ c, Counted.Tracks P n (f c) (inside n c)) {r : Rule} (h : r.Regular nests)
    (c : Cursor) : Counted.Tracks P n (r.run ⟨d, f⟩ c) (r.count d inside n c) := by
  induction r generalizing c with
  | done | refuse | refuseLine | fault => exact .of _ n
  | read a next ih => exact .argument hP (fun x => ih x (h x)) c
  | expect x next ih | complain e next ih | noteTooDeep next ih | mark name next ih =>
    exact .andThen hP (.of _ n) (ih h)
  | spaces next ih | negation next ih => exact ih h _
  | look q yes no ihy ihn =>
    unfold run count
    split
    · exact ihy h.1 c
    · exact ihn h.2 c
  | list b mayBeEmpty element next ihe ih =>
    have hs : Counted.Tracks P n _ (Counted.list b mayBeEmpty (element.count d inside) n c) :=
      .list hP (ihe h.1) c
    unfold run count
    simp only [hs.step]
    exact .andThen hP hs.unmarked (ih _ (h.2 _))
  | clauses keywords clause next ihc ih =>
    exact .clauses hP (fun w => ihc w (h.1 w)) (fun w => ih w (h.2 w)) _ none c
  | nested next ih => exact .andThen hP (hn h.1 c) (ih h.2)
  | embedded inner next ihi ih =>
    have hinner := (ihi h.1 ⟨Text.trimEnd c.line, c.position⟩).whole hP
    exact .andThen hP (.andThen hP (hinner.moved c.toLineEnd) fun _ => .of _ n) (ih h.2)
  | ask next ih => exact ih d (h.2 d) c

/-- A rule that holds no other commands runs apart from the counter. -/
theorem Rule.count_eq_of {d : Dialect} {n : Nat} {inside : Counting} {r : Rule}
    (h : r.Regular False) (f : Cursor → Step) (c : Cursor) :
    r.count d inside n c = .of (r.run ⟨d, f⟩ c) n := by
  have htracks : Counted.Tracks (fun _ => False) n (r.run ⟨d, f⟩ c) (r.count d inside n c) :=
    tracks_count (fun _ _ => id) False.elim h c
  have hcalls : (r.count d inside n c).calls = [] :=
    List.eq_nil_iff_forall_not_mem.mpr htracks.calls
  calc r.count d inside n c
      = ⟨(r.count d inside n c).step, (r.count d inside n c).depth,
          (r.count d inside n c).calls⟩ := rfl
    _ = .of (r.run ⟨d, f⟩ c) n := by rw [htracks.step, htracks.depth, hcalls, Counted.of]

theorem Rule.calls_count {d : Dialect} {n : Nat} {inside : Counting} {r : Rule}
    (h : r.Regular False) (c : Cursor) : (r.count d inside n c).calls = [] :=
  congrArg Counted.calls (count_eq_of h Step.done c)

/-! ## One rule after another -/

namespace Counted

variable {s : Counted} {next : Counting}

theorem andThen_assoc (s : Counted) (next last : Counting) :
    (s.andThen next).andThen last = s.andThen fun n c => (next n c).andThen last := by
  by_cases hs : s.step.outcome = .done
  · by_cases hn : (next s.depth s.step.cursor).step.outcome = .done
    · have hboth : (s.andThen next).step.outcome = .done := by
        rw [andThen_of_done hs]
        exact (Step.outcome_andThen_of_done hs).trans hn
      rw [andThen_of_done hboth]
      simp only [andThen_of_done hs, andThen_of_done hn]
      simp [Step.andThen, hs, hn, Call.after, Function.comp_def]
    · have hboth : (s.andThen next).step.outcome ≠ .done := by
        rw [andThen_of_done hs]
        exact fun h => hn ((Step.outcome_andThen_of_done hs).symm.trans h)
      rw [andThen_of_ne_done hboth]
      simp only [andThen_of_done hs, andThen_of_ne_done hn]
  · simp only [andThen_of_ne_done hs]

theorem of_andThen (t : Step) (f : Cursor → Step) (n : Nat) :
    (of t n).andThen (fun n c => of (f c) n) = of (t.andThen f) n := by
  by_cases ht : t.outcome = .done
  · rw [andThen_of_done ht]
    simp [of, Step.andThen, ht]
  · rw [andThen_of_ne_done ht, Step.andThen_of_ne_done ht]

theorem of_done_andThen (n : Nat) (c : Cursor) : (of (.done c) n).andThen next = next n c := by
  rw [andThen_of_done rfl]
  simp [of, Step.andThen, Step.done, Call.after]

variable {last : Counting}

/-- Nothing comes after a step that gives up. -/
theorem of_halting (t : Step) (n : Nat) :
    (of (t.andThen .halt) n).andThen last = of (t.andThen .halt) n := by
  rw [← of_andThen, andThen_assoc]
  rfl

theorem argument_andThen (a : Argument) (n : Nat) (c : Cursor) (next : a.Answer → Counting) :
    (argument a n c next).andThen last = argument a n c fun x n d => (next x n d).andThen last := by
  unfold argument
  rw [andThen_assoc]
  congr 1
  funext m d
  cases (a.read c).answer <;> rfl

theorem clauses_andThen (keywords : List String) (clause : String → Counting)
    (finish : Option String → Counting) (fuel : Nat) (w : Option String) (n : Nat) (c : Cursor) :
    (clauses keywords clause finish fuel w n c).andThen last =
      clauses keywords clause (fun w n d => (finish w n d).andThen last) fuel w n c := by
  induction fuel generalizing w n c with
  | zero => rfl
  | succ fuel ih =>
    unfold clauses
    split
    · rfl
    · rw [argument_andThen]
      simp only [andThen_assoc, ih]

end Counted

theorem Rule.count_append (d : Dialect) (inside : Counting) (r s : Rule) :
    (r ++ s).count d inside = fun n c => (r.count d inside n c).andThen (s.count d inside) := by
  change (r.andThen s).count d inside = _
  induction r with
  | done => exact funext₂ fun n c => (Counted.of_done_andThen n c).symm
  | fault => rfl
  | refuse e => exact funext₂ fun n c => (Counted.of_halting (Step.complain e c) n).symm
  | refuseLine e => exact funext₂ fun n c => (Counted.of_halting (Step.sweep e c) n).symm
  | spaces next ih | negation next ih => exact funext₂ fun n c => congrFun₂ ih n _
  | ask next ih => exact ih d
  | read a next ih =>
    funext n c
    simp only [andThen, count, Counted.argument_andThen, ih]
  | look q yes no ihy ihn =>
    funext n c
    simp only [andThen, count, ihy, ihn]
    split <;> rfl
  | clauses keywords clause next _ ih =>
    funext n c
    simp only [andThen, count, Counted.clauses_andThen, ih]
  | list b mayBeEmpty element next _ ih | embedded inner next _ ih | expect x next ih
  | complain e next ih | mark name next ih | nested next ih | noteTooDeep next ih =>
    funext n c
    simp only [andThen, count, Counted.andThen_assoc, ih]

/-! ## Going up and down -/

namespace Counted

/-- The record of a call that looks at the counter. -/
def called (n : Nat) (c : Cursor) (s : Counted) : Counted :=
  { s with calls := ⟨[], n, [], c, s.step⟩ :: s.calls }

/-- Behind something that is counted, the counter goes down again. -/
def within (c : Cursor) (s : Counted) : Counted :=
  { s with depth := s.depth - 1, calls := s.calls.map (·.within c) }

/-- Enters something that is counted, unless the counter has reached its limit. While it runs, the
counter is one higher. -/
def nesting (tooDeep : Cursor → Step) (enter : Counting → Counting) : Nat → Counting
  | 0, n, c => (of (.fail .endless c) n).called n c
  | fuel + 1, n, c =>
    called n c <|
      if maxNesting ≤ n then of (tooDeep c) n
      else (enter (nesting tooDeep enter fuel) (n + 1) c).within c

end Counted

/-- A call in a run that starts at a count: the counter has gone up once for each of those around
the call, and what comes of it is what comes of so many levels as are left. -/
structure Call.Counts (f : Nat → Cursor → Step) (n : Nat) (call : Call) : Prop where
  depth : call.depth = n + call.around.length
  le : call.depth ≤ maxNesting
  step : call.step = f (maxNesting - call.depth) call.place

theorem Call.stable_counts (f : Nat → Cursor → Step) (n : Nat) :
    Call.Stable (Call.Counts f n) :=
  fun _ _ h => ⟨h.depth, h.le, h.step⟩

namespace Counted.Tracks

variable {f : Nat → Cursor → Step} {n : Nat} {t : Step} {s : Counted} {c : Cursor}

theorem within (h : Tracks (Call.Counts f (n + 1)) (n + 1) t s) (c : Cursor) :
    Tracks (Call.Counts f n) n t (s.within c) := by
  obtain ⟨rfl, hdepth, hcalls, hplaced⟩ := h
  refine ⟨rfl, by simp only [Counted.within, hdepth, Nat.add_sub_cancel], ?_, ?_⟩
  · intro call hcall
    obtain ⟨inner, hinner, rfl⟩ := List.mem_map.mp hcall
    obtain ⟨hd, hle, hstep⟩ := hcalls inner hinner
    refine ⟨?_, hle, hstep⟩
    change inner.depth = n + (inner.around ++ [c]).length
    rw [List.length_append, List.length_singleton, hd]
    omega
  · intro call hcall
    obtain ⟨inner, hinner, rfl⟩ := List.mem_map.mp hcall
    exact hplaced inner hinner

theorem called (h : Tracks (Call.Counts f n) n t s) (hle : n ≤ maxNesting)
    (ht : t = f (maxNesting - n) c) : Tracks (Call.Counts f n) n t (s.called n c) := by
  obtain ⟨rfl, hdepth, hcalls, hplaced⟩ := h
  exact ⟨rfl, hdepth, List.forall_mem_cons.mpr ⟨⟨rfl, hle, ht⟩, hcalls⟩,
    List.forall_mem_cons.mpr ⟨List.prefix_rfl, hplaced⟩⟩

/-- Whatever comes of what lies inside, the counter is as before, and at every call it is the
number of those around. -/
theorem nesting {tooDeep : Cursor → Step} {enter : Counting → Counting} {fuel : Nat}
    (h0 : f 0 = tooDeep)
    (henter : ∀ P, Call.Stable P → ∀ levels n inside,
      (∀ c, Tracks P n (f levels c) (inside n c)) →
        ∀ c, Tracks P n (f (levels + 1) c) (enter inside n c))
    (hle : n ≤ maxNesting) (hf : maxNesting < n + fuel) (c : Cursor) :
    Tracks (Call.Counts f n) n (f (maxNesting - n) c) (nesting tooDeep enter fuel n c) := by
  induction fuel generalizing n c with
  | zero => omega
  | succ fuel ih =>
    unfold Counted.nesting
    refine called ?_ hle rfl
    split
    · next hlimit =>
      rw [Nat.sub_eq_zero_of_le hlimit, h0]
      exact of _ n
    · next hlimit =>
      have hlevels : maxNesting - n = maxNesting - (n + 1) + 1 := by omega
      rw [hlevels]
      refine within (henter _ (Call.stable_counts f _) _ _ _ (fun d => ih ?_ ?_ d) c) c
      · omega
      · omega

end Counted.Tracks
end BedrockCommand

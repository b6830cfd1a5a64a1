import BedrockCommand.Proofs.Rule.Only
/-!
Runs that go the same way. One step function follows another if it does the same from every place
where the other reports only events of some sort: what is ruled out by the sort are the events at
which the two may part, such as errors. Steps made of steps that follow each other do so too, since
a step reports whatever its parts report.
-/
namespace BedrockCommand.Step

/-- The second function does what the first one does, wherever that reports only events of one
sort. -/
def Follows (Q : Event → Prop) (f g : Cursor → Step) : Prop :=
  ∀ c, (f c).Only Q → g c = f c

variable {Q : Event → Prop} {s t : Step} {f g : Cursor → Step} {c : Cursor}

theorem Follows.refl (f : Cursor → Step) : Follows Q f f :=
  fun _ _ => rfl

theorem andThen_congr (hs : s.Only Q → t = s)
    (hf : (f s.cursor).Only Q → g s.cursor = f s.cursor) (h : (s.andThen f).Only Q) :
    t.andThen g = s.andThen f := by
  rw [hs h.left]
  by_cases hd : s.outcome = .done
  · simp only [andThen, hd, hf (h.right hd)]
  · rw [andThen_of_ne_done hd, andThen_of_ne_done hd]

/-- The same step, and behind it what follows. -/
theorem andThen_congr_right (hf : Follows Q f g) (h : (s.andThen f).Only Q) :
    s.andThen g = s.andThen f :=
  andThen_congr (fun _ => rfl) (hf s.cursor) h

namespace Follows

theorem andThen {f' g' : Cursor → Step} (h : Follows Q f g) (h' : Follows Q f' g') :
    Follows Q (fun c => (f c).andThen f') (fun c => (g c).andThen g') :=
  fun c => andThen_congr (h c) (h' _)

theorem settle (h : Follows Q f g) : Follows Q (fun c => (f c).settle) (fun c => (g c).settle) :=
  fun c hc => congrArg Step.settle (h c (by simpa [Only] using hc))

variable {b : Brackets} {fuel : Nat}

/-- The same question decides between steps on both sides. -/
theorem ite {f' g' : Cursor → Step} (q : Cursor → Prop) [DecidablePred q] (h : Follows Q f g)
    (h' : Follows Q f' g') :
    Follows Q (fun c => if q c then f c else f' c) (fun c => if q c then g c else g' c) := by
  intro c hc
  by_cases hq : q c
  · simp only [if_pos hq] at hc ⊢
    exact h c hc
  · simp only [if_neg hq] at hc ⊢
    exact h' c hc

theorem afterElement (h : Follows Q f g) :
    Follows Q (Step.afterElement b f fuel) (Step.afterElement b g fuel) := by
  induction fuel with
  | zero => exact .refl _
  | succ fuel ih =>
    have hcomma : Follows Q
        (fun c => if isTrailing b.closing c then
          (error .trailingComma c c.advance).andThen fun c => close c.skipSpaces
          else f c.advance)
        (fun c => if isTrailing b.closing c then
          (error .trailingComma c c.advance).andThen fun c => close c.skipSpaces
          else g c.advance) :=
      ite _ (.refl _) fun c => h c.advance
    have hjunk : Follows Q
        (fun c => (error (.expectedSeparator b.closing) c (c.toSeparator b.closing)).andThen
          (Step.afterElement b f fuel))
        (fun c => (error (.expectedSeparator b.closing) c (c.toSeparator b.closing)).andThen
          (Step.afterElement b g fuel)) :=
      fun _ => andThen_congr_right ih
    exact ite _ (.refl _) (ite _ hcomma (ite _ (.refl _) hjunk))

theorem elements (h : Follows Q f g) :
    Follows Q (Step.elements b f fuel) (Step.elements b g fuel) := by
  induction fuel with
  | zero => exact .refl _
  | succ fuel ih =>
    intro c hc
    -- The element is a part of the list, so that it reports nothing else either.
    have hfirst : (f c.skipSpaces).Only Q := by
      unfold Step.elements at hc
      simp only at hc
      split at hc
      · exact hc
      · simpa [Only] using hc.left
    unfold Step.elements at hc ⊢
    simp only [h _ hfirst] at hc ⊢
    by_cases hend : (f c.skipSpaces).outcome = .halted ∧
        (f c.skipSpaces).cursor.lineContinues = false
    · rw [if_pos hend, if_pos hend]
    · rw [if_neg hend] at hc
      rw [if_neg hend, if_neg hend]
      exact andThen_congr_right (fun d => afterElement ih d) hc

theorem list {mayBeEmpty : Bool} (h : Follows Q f g) :
    Follows Q (Step.list b mayBeEmpty f) (Step.list b mayBeEmpty g) := by
  have hopened : Follows Q
      (fun c => if c.isAt b.closing then
        if mayBeEmpty then close c else (complain .emptyList c).andThen close
        else Step.elements b f (c.line.length + 1) c)
      (fun c => if c.isAt b.closing then
        if mayBeEmpty then close c else (complain .emptyList c).andThen close
        else Step.elements b g (c.line.length + 1) c) :=
    ite _ (.refl _) fun c => elements h c
  exact ite _ (.refl _) fun c => hopened c.advance.skipSpaces

theorem argument {a : Argument} {next next' : a.Answer → Cursor → Step}
    (h : ∀ x, Follows Q (next x) (next' x)) :
    Follows Q (fun c => Step.argument a c next) (fun c => Step.argument a c next') := by
  intro c hc
  unfold Step.argument at hc ⊢
  -- Both go on as the answer says.
  refine andThen_congr_right ?_ hc
  cases (a.read c).answer with
  | none => exact .refl _
  | some x => exact h x

theorem clauses {keywords : List String} {clause clause' : String → Cursor → Step}
    {finish finish' : Option String → Cursor → Step}
    (hc : ∀ w, Follows Q (clause w) (clause' w)) (hf : ∀ w, Follows Q (finish w) (finish' w))
    (last : Option String) :
    Follows Q (Step.clauses keywords clause finish fuel last)
      (Step.clauses keywords clause' finish' fuel last) := by
  induction fuel generalizing last with
  | zero => exact .refl _
  | succ fuel ih => exact ite _ (hf last) (argument fun w => (hc w).andThen (ih (some w)))

theorem whole (h : Follows Q f g) : Follows Q (fun c => (f c).whole) (fun c => (g c).whole) :=
  h.settle.andThen (.refl _)

end Follows
end BedrockCommand.Step

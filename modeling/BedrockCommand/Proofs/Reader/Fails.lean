import BedrockCommand.Reader.Number
import BedrockCommand.Reader.Word
/-!
What a reader fails with. The errors of a reader are those of the readers that it is put together
from, so that one lemma for each way to put readers together tells of which sort they are.
-/
namespace BedrockCommand.Reader

/-- A reader of which every failure is one of some sort. -/
def FailsWith (Q : SyntaxError → Cursor → Prop) (r : Reader α) : Prop :=
  ∀ c e d, r c = (.error e, d) → Q e d

variable {Q : SyntaxError → Cursor → Prop}

theorem FailsWith.bind {r : Reader α} (hr : FailsWith Q r) {k : α → Reader β}
    (hk : ∀ x, FailsWith Q (k x)) : FailsWith Q (r >>= k) := by
  intro c e d h
  rcases bind_eq_error.mp h with h | ⟨x, c', -, h⟩
  · exact hr c e d h
  · exact hk x c' e d h

theorem FailsWith.ite {r s : Reader α} (hr : FailsWith Q r) (hs : FailsWith Q s) (P : Prop)
    [Decidable P] : FailsWith Q (if P then r else s) := by
  split
  · exact hr
  · exact hs

theorem failsWith_of_ok {r : Reader α} (h : ∀ c, ∃ x, (r c).1 = .ok x) : FailsWith Q r := by
  intro c e d hr
  obtain ⟨x, hx⟩ := h c
  simp [hr] at hx

theorem failsWith_pure (x : α) : FailsWith Q (pure x : Reader α) :=
  failsWith_of_ok fun _ => ⟨x, rfl⟩

theorem failsWith_look (f : Cursor → α) : FailsWith Q (look f) :=
  failsWith_of_ok fun c => ⟨f c, rfl⟩

theorem failsWith_move (f : Cursor → Cursor) : FailsWith Q (move f) :=
  failsWith_of_ok fun _ => ⟨(), rfl⟩

theorem failsWith_takeWhile (q : Char → Bool) : FailsWith Q (takeWhile q) :=
  failsWith_of_ok fun _ => ⟨_, rfl⟩

theorem failsWith_spaces : FailsWith Q spaces :=
  failsWith_move _

theorem failsWith_spacesBefore (q : Char → Bool) : FailsWith Q (spacesBefore q) := by
  refine failsWith_of_ok fun c => ?_
  unfold spacesBefore
  repeat' split
  all_goals exact ⟨_, rfl⟩

theorem failsWith_sign : FailsWith Q sign := by
  refine failsWith_of_ok fun c => ?_
  unfold sign
  split
  all_goals exact ⟨_, rfl⟩

theorem failsWith_line : FailsWith Q line :=
  failsWith_of_ok fun _ => ⟨_, rfl⟩

theorem FailsWith.fail {e : SyntaxError} (he : ∀ c, Q e c) :
    FailsWith Q (Reader.fail e : Reader α) := by
  intro c e' d h
  obtain ⟨he', rfl⟩ := Prod.mk.inj h
  obtain rfl := Except.error.inj he'
  exact he c

theorem FailsWith.exactly {x : Char} (hx : ∀ c, Q (.expectedChar x) c) :
    FailsWith Q (Reader.exactly x) := by
  intro c e d h
  unfold Reader.exactly at h
  split at h
  · simp at h
  · exact FailsWith.fail hx c e d h

theorem FailsWith.digits {missing : SyntaxError} (h : ∀ c, Q missing c) :
    FailsWith Q (Reader.digits missing) :=
  .bind (failsWith_takeWhile _) fun _ => .ite (.fail h) (failsWith_pure _) _

section

variable (hinteger : ∀ c, Q .expectedInteger c) (hoverflow : ∀ c, Q .integerOverflow c)
include hinteger hoverflow

theorem FailsWith.rawInteger : FailsWith Q Reader.rawInteger :=
  .bind failsWith_sign fun _ => .bind (.digits hinteger) fun _ =>
    .ite (failsWith_pure _) (.fail hoverflow) _

theorem FailsWith.bound? : FailsWith Q Reader.bound? :=
  .bind (failsWith_look _) fun _ => .ite (.bind (.rawInteger hinteger hoverflow) fun _ =>
    failsWith_pure _) (failsWith_pure _) _

theorem FailsWith.upperBound? (hpoint : ∀ c, Q (.expectedChar '.') c) :
    FailsWith Q Reader.upperBound? :=
  .bind (failsWith_spacesBefore _) fun _ => .ite (.bind (failsWith_move _) fun _ =>
    .bind (.exactly hpoint) fun _ => .bind (failsWith_spacesBefore _) fun _ =>
      .ite (.bind (.rawInteger hinteger hoverflow) fun _ => failsWith_pure _) (failsWith_pure _) _)
    (failsWith_pure _) _

end

end BedrockCommand.Reader

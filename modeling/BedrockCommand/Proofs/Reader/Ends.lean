import BedrockCommand.Proofs.Reader.Number
import BedrockCommand.Proofs.Reader.Word
/-!
Readers that end their argument. Behind whatever such a reader gives, the text goes on with a
character that ends a word, or a space has been taken in.
-/
namespace BedrockCommand

/-- Between two cursors lies an argument that has ended: the text goes on behind it with a character
that ends a word, or it ends with a space. -/
def Cursor.EndsArgument (c d : Cursor) : Prop :=
  d.terminated = true ∨ ∃ cs, c.rest = cs ++ ' ' :: d.rest

theorem Cursor.EndsArgument.after {c d e : Cursor} (hs : d.rest <:+ c.rest)
    (h : d.EndsArgument e) : c.EndsArgument e := by
  obtain ⟨cs, hcs⟩ := hs
  refine h.imp_right fun ⟨ds, hds⟩ => ⟨cs ++ ds, ?_⟩
  rw [← hcs, hds, List.append_assoc]

/-- Spaces that are passed over, the last of which stands in front of what is left. -/
theorem Cursor.exists_skipSpaces {c : Cursor} (h : c.isAt ' ' = true) :
    ∃ cs, c.rest = cs ++ ' ' :: c.skipSpaces.rest := by
  have hne : c.rest.takeWhile (· = ' ') ≠ [] := by
    obtain ⟨cs, hr⟩ := isAt_iff.mp h
    simp [hr]
  have hlast : (c.rest.takeWhile (· = ' ')).getLast hne = ' ' := by
    simpa using List.mem_takeWhile_imp (List.getLast_mem hne)
  refine ⟨(c.rest.takeWhile (· = ' ')).dropLast, ?_⟩
  have hspaces := List.dropLast_concat_getLast hne
  rw [hlast] at hspaces
  rw [skipSpaces, skipWhile_eq, List.append_cons, hspaces, List.takeWhile_append_dropWhile]

namespace Reader

/-- A reader that leaves an end of the text. -/
def Onward (r : Reader α) : Prop :=
  ∀ c, (r c).2.rest <:+ c.rest

theorem Onward.of_onLine {r : Reader α} (hr : r.OnLine) : r.Onward := by
  intro c
  obtain ⟨cs, -, hcs, -⟩ := hr.ahead c
  exact ⟨cs, hcs.symm⟩

theorem onward_look (f : Cursor → α) : (look f).Onward :=
  fun _ => List.suffix_rfl

theorem onward_advance : (move Cursor.advance).Onward :=
  fun c => List.drop_suffix 1 c.rest

/-- A reader that gives nothing before its argument has ended. -/
def Ends (r : Reader α) : Prop :=
  ∀ c x d, r c = (.ok x, d) → c.EndsArgument d

namespace Ends

variable {r s : Reader α}

/-- A reader that ends its argument may come behind others. -/
theorem after {t : Reader β} (ht : t.Onward) {next : β → Reader α} (hn : ∀ x, (next x).Ends) :
    (t >>= next).Ends := by
  intro c y e h
  obtain ⟨x, d, hd, he⟩ := bind_eq_ok.mp h
  have hsuffix := ht c
  rw [hd] at hsuffix
  exact (hn x d y e he).after hsuffix

theorem bind_pure (hr : r.Ends) (f : α → β) :
    (r >>= fun x => (pure (f x) : Reader β)).Ends := by
  intro c y e h
  obtain ⟨x, d, hd, he⟩ := bind_eq_ok.mp h
  obtain ⟨-, rfl⟩ := ok_inj he
  exact hr c x d hd

theorem ite (hr : r.Ends) (hs : s.Ends) (P : Prop) [Decidable P] : (if P then r else s).Ends := by
  split
  · exact hr
  · exact hs

end Ends

theorem ends_fail (e : SyntaxError) : (fail e : Reader α).Ends := by
  intro c x d h
  simp at h

/-- Where a word ends there is a space, which is taken in, or another end of a word. -/
theorem ends_argumentEnd : argumentEnd.Ends := by
  intro c u d h
  obtain ⟨b, c', hb, hd⟩ := bind_eq_ok.mp h
  obtain ⟨rfl, rfl⟩ := ok_inj hb
  split at hd
  · next hterminated =>
    obtain ⟨-, rfl⟩ := ok_inj hd
    cases hspace : c.isAt ' ' with
    | true => exact .inr (Cursor.exists_skipSpaces hspace)
    | false =>
      have hhead : c.rest.head? ≠ some ' ' := fun h => by
        obtain ⟨cs, hr⟩ := List.head?_eq_some_iff.mp h
        simp [Cursor.isAt, hr] at hspace
      rw [Cursor.skipSpaces_eq_self hhead]
      exact .inl hterminated
  · simp at hd

theorem ends_coordinate : coordinate.Ends := by
  have hend (a : Anchor) : (argumentEnd >>= fun _ => (pure a : Reader Anchor)).Ends :=
    .bind_pure ends_argumentEnd fun _ => a
  have hmark (a : Anchor) : (move Cursor.advance >>= fun _ => offset >>= fun _ =>
      argumentEnd >>= fun _ => (pure a : Reader Anchor)).Ends :=
    .after onward_advance fun _ => .after (.of_onLine onLine_offset) fun _ => hend a
  refine .after (onward_look _) fun _ => .ite (hmark .place) ?_ _
  refine .after (onward_look _) fun _ => .ite (hmark .view) ?_ _
  refine .after (onward_look _) fun _ => .ite ?_ (ends_fail _) _
  exact .after (.of_onLine onLine_rawNumber) fun _ => hend .world

theorem ends_number : number.Ends :=
  .after (.of_onLine onLine_rawNumber) fun x => .bind_pure ends_argumentEnd fun _ => x

/-- An angle ends its argument, unless it is a tilde alone. -/
theorem angle_ends {c d : Cursor} {u : Unit} (h : angle c = (.ok u, d)) :
    c.EndsArgument d ∨ c.rest = '~' :: d.rest := by
  have hnumber : (number >>= fun _ => (pure () : Reader Unit)).Ends :=
    .bind_pure ends_number fun _ => ()
  obtain ⟨b, c', hb, h⟩ := bind_eq_ok.mp h
  obtain ⟨rfl, rfl⟩ := ok_inj hb
  split at h
  · next hat =>
    obtain ⟨cs, hr⟩ := Cursor.isAt_iff.mp hat
    obtain ⟨_, c', hc, h⟩ := bind_eq_ok.mp h
    obtain ⟨-, rfl⟩ := ok_inj hc
    obtain ⟨b, c', hb, h⟩ := bind_eq_ok.mp h
    obtain ⟨rfl, rfl⟩ := ok_inj hb
    rw [Cursor.advance_of_rest hr] at h
    split at h
    · exact .inl ((hnumber _ u d h).after ⟨['~'], by rw [hr]; rfl⟩)
    · obtain ⟨-, rfl⟩ := ok_inj h
      exact .inr hr
  · exact .inl (hnumber _ u d h)

end Reader
end BedrockCommand

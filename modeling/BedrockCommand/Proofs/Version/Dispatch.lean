import BedrockCommand.Proofs.Version.Versioned
import Mathlib.Data.List.Nodup
/-!
Forms that are registered one after another. They stand in the order of their versions, the newest
first, in whatever order they are registered, so that the first one that is not too new is the one
in force.
-/
namespace BedrockCommand.Versioned

variable {α : Type u} {r r' : Versioned α} {registered : List (Version × α)} {t v w : Version}
  {f x : α}

/-- A thing that gets more forms, one after another. -/
def variations (r : Versioned α) (later : List (Version × α)) :
    Except RepeatedThreshold (Versioned α) :=
  later.foldlM (fun r p => r.variation p.1 p.2) r

theorem variations_cons (r : Versioned α) (t : Version) (f : α) (later : List (Version × α)) :
    r.variations ((t, f) :: later) = (r.variation t f >>= fun r => r.variations later) :=
  List.foldlM_cons

/-- Whether a form is the one among some forms that counts at a version: its own version is the
newest one that is not newer. -/
def InForce (registered : List (Version × α)) (v : Version) (x : α) : Prop :=
  ∃ t, (t, x) ∈ registered ∧ t.atMost v = true ∧
    ∀ p ∈ registered, p.1.atMost v = true → p.1.atMost t = true

/-- What comes of registering some forms: nothing if two of them have one version, and otherwise
a thing with just these forms, the newest first, that has at each version the form in force. -/
structure Dispatches (registered : List (Version × α))
    (built : Except RepeatedThreshold (Versioned α)) : Prop where
  refused : (∃ e, built = .error e) ↔ ¬ (registered.map Prod.fst).Nodup
  descending : ∀ r, built = .ok r → r.thresholds.Pairwise fun v w => w.order v = .lt
  thresholds : ∀ r, built = .ok r → r.thresholds.Perm (registered.map Prod.fst)
  resolved : ∀ r, built = .ok r → ∀ v x, r.resolve? v = some x ↔ InForce registered v x
  unresolved : ∀ r, built = .ok r → ∀ v,
    r.resolve? v = none ↔ ∀ p ∈ registered, v.order p.1 = .lt

/-! ## One form -/

/-- The forms of a thing are those that were registered, the newest first. -/
structure Registers (registered : List (Version × α)) (r : Versioned α) : Prop where
  perm : r.forms.Perm registered
  descending : r.forms.Pairwise fun p q => q.1.order p.1 = .lt

theorem pairwise_place {forms : List (Version × α)} (ht : t ∉ forms.map Prod.fst)
    (h : forms.Pairwise fun p q => q.1.order p.1 = .lt) :
    (place t f forms).Pairwise fun p q => q.1.order p.1 = .lt := by
  induction forms with
  | nil => exact List.pairwise_singleton ..
  | cons p forms ih =>
    obtain ⟨hne, ht⟩ := not_or.mp (mt List.mem_cons.mpr ht)
    obtain ⟨hp, hforms⟩ := List.pairwise_cons.mp h
    unfold place
    split
    · next hlt =>
      refine List.pairwise_cons.mpr ⟨List.forall_mem_cons.mpr ⟨hlt, fun q hq => ?_⟩, h⟩
      exact Version.order_eq_lt_trans (hp q hq) hlt
    · next hlt =>
      refine List.pairwise_cons.mpr ⟨fun q hq => ?_, ih ht hforms⟩
      rcases List.mem_cons.mp ((perm_place ..).mem_iff.mp hq) with rfl | hq
      · exact Version.order_eq_lt_of_ne hne hlt
      · exact hp q hq

namespace Registers

theorem first (t : Version) (f : α) : Registers [(t, f)] (since t f) :=
  ⟨.refl _, List.pairwise_singleton ..⟩

theorem of_perm {others : List (Version × α)} (h : r.Registers registered)
    (hp : registered.Perm others) : r.Registers others :=
  ⟨h.perm.trans hp, h.descending⟩

theorem thresholds (h : r.Registers registered) :
    r.thresholds.Perm (registered.map Prod.fst) :=
  h.perm.map _

theorem nodup (h : r.Registers registered) : (registered.map Prod.fst).Nodup := by
  refine h.thresholds.nodup_iff.mp (List.pairwise_map.mpr (h.descending.imp fun hlt he => ?_))
  rw [he] at hlt
  exact Version.order_ne_lt_self _ hlt

/-- One more form from a version on that has none. -/
theorem insert (h : r.Registers registered) (ht : t ∉ registered.map Prod.fst) (f : α) :
    (r.insert t f).Registers ((t, f) :: registered) :=
  ⟨(perm_place ..).trans (h.perm.cons _),
    pairwise_place (mt h.thresholds.mem_iff.mp ht) h.descending⟩

/-- All forms get their places, or one of them has a version with a form. -/
theorem cases_variations (h : r.Registers registered) (later : List (Version × α)) :
    (∃ r', r.variations later = .ok r' ∧ r'.Registers (registered ++ later)) ∨
    (∃ e, r.variations later = .error e) ∧ ¬ ((registered ++ later).map Prod.fst).Nodup := by
  induction later generalizing r registered with
  | nil => exact .inl ⟨r, rfl, by simpa using h⟩
  | cons p later ih =>
    obtain ⟨t, f⟩ := p
    by_cases ht : t ∈ registered.map Prod.fst
    · refine .inr ⟨⟨⟨t⟩, ?_⟩, fun hn => ?_⟩
      · have hrefused : r.variation t f = .error ⟨t⟩ := if_pos (h.thresholds.mem_iff.mpr ht)
        rw [variations_cons, hrefused]
        rfl
      · rw [List.map_append, List.map_cons] at hn
        exact (List.nodup_append.mp hn).2.2 t ht t (List.mem_cons_self ..) rfl
    · have hplaced : r.variation t f = .ok (r.insert t f) :=
        if_neg (mt h.thresholds.mem_iff.mp ht)
      have hrun : r.variations ((t, f) :: later) = (r.insert t f).variations later := by
        rw [variations_cons, hplaced]
        rfl
      have hperm : ((t, f) :: registered ++ later).Perm (registered ++ (t, f) :: later) :=
        List.perm_middle.symm
      rw [hrun]
      refine (ih (h.insert ht f)).imp ?_ ?_
      · rintro ⟨r', hr', hreg⟩
        exact ⟨r', hr', hreg.of_perm hperm⟩
      · rintro ⟨he, hn⟩
        exact ⟨he, mt (hperm.map Prod.fst).nodup_iff.mpr hn⟩

theorem inForce (h : r.Registers registered) (hx : r.resolve? v = some x) :
    InForce registered v x := by
  obtain ⟨⟨t, y⟩, hfind, rfl⟩ := Option.map_eq_some_iff.mp hx
  obtain ⟨ht, newer, older, hforms, hnewer⟩ := List.find?_eq_some_iff_append.mp hfind
  refine ⟨t, h.perm.mem_iff.mp (List.mem_of_find?_eq_some hfind), ht, fun p hp hv => ?_⟩
  have hdescending := h.descending
  have hp := h.perm.mem_iff.mpr hp
  rw [hforms] at hp hdescending
  obtain ⟨-, holder, -⟩ := List.pairwise_append.mp hdescending
  rcases List.mem_append.mp hp with hp | hp
  · simpa [hv] using hnewer p hp
  rcases List.mem_cons.mp hp with rfl | hp
  · exact Version.atMost_refl _
  · exact Version.atMost_of_order_eq_lt (List.rel_of_pairwise_cons holder hp)

theorem resolve?_eq_some_iff (h : r.Registers registered) :
    r.resolve? v = some x ↔ InForce registered v x := by
  refine ⟨h.inForce, fun ⟨t, ht, hv, hnewest⟩ => ?_⟩
  cases hr : r.resolve? v with
  | none =>
    have hnone := List.find?_eq_none.mp (Option.map_eq_none_iff.mp hr)
    exact absurd hv (hnone (t, x) (h.perm.mem_iff.mpr ht))
  | some y =>
    obtain ⟨u, hu, huv, hnewest'⟩ := h.inForce hr
    obtain rfl : u = t := Version.atMost_antisymm (hnewest _ hu huv) (hnewest' _ ht hv)
    rw [(Prod.mk.inj (List.inj_on_of_nodup_map h.nodup hu ht rfl)).2]

theorem resolve?_eq_none_iff (h : r.Registers registered) :
    r.resolve? v = none ↔ ∀ p ∈ registered, v.order p.1 = .lt := by
  rw [resolve?, Option.map_eq_none_iff, List.find?_eq_none]
  simp only [h.perm.mem_iff, Bool.not_eq_true, Version.order_eq_lt_iff]

/-- The forms and their order are told by what was registered. -/
theorem unique (h : r.Registers registered) (h' : r'.Registers registered) : r = r' := by
  obtain ⟨forms⟩ := r
  obtain ⟨forms'⟩ := r'
  have hforms : forms = forms' := by
    refine List.Perm.eq_of_pairwise (fun p q _ _ hpq hqp => ?_) h.descending h'.descending
      (h.perm.trans h'.perm.symm)
    exact absurd (Version.order_eq_lt_trans hpq hqp) (Version.order_ne_lt_self _)
  rw [hforms]

theorem dispatches (h : r.Registers registered) (later : List (Version × α)) :
    Dispatches (registered ++ later) (r.variations later) := by
  rcases h.cases_variations later with ⟨built, hbuilt, hreg⟩ | ⟨⟨e, he⟩, hn⟩
  · have hall {s : Versioned α} (hs : r.variations later = .ok s) :
        s.Registers (registered ++ later) :=
      Except.ok.inj (hbuilt.symm.trans hs) ▸ hreg
    exact {
      refused := iff_of_false (by simp [hbuilt]) fun hn => hn hreg.nodup
      descending := fun s hs => List.pairwise_map.mpr (hall hs).descending
      thresholds := fun s hs => (hall hs).thresholds
      resolved := fun s hs v x => (hall hs).resolve?_eq_some_iff
      unresolved := fun s hs v => (hall hs).resolve?_eq_none_iff }
  · have hnone {s : Versioned α} (hs : r.variations later = .ok s) : False := by
      simp [he] at hs
    exact {
      refused := iff_of_true ⟨e, he⟩ hn
      descending := fun s hs => (hnone hs).elim
      thresholds := fun s hs => (hnone hs).elim
      resolved := fun s hs => (hnone hs).elim
      unresolved := fun s hs => (hnone hs).elim }

/-- Registering the same forms in another order comes to the same. -/
theorem variations_of_perm {s s' : Versioned α} {others later later' : List (Version × α)}
    (h : s.Registers registered) (h' : s'.Registers others)
    (hp : (registered ++ later).Perm (others ++ later')) (hr : s.variations later = .ok r) :
    s'.variations later' = .ok r := by
  rcases h.cases_variations later with ⟨built, hbuilt, hreg⟩ | ⟨⟨e, he⟩, -⟩
  · obtain rfl : built = r := Except.ok.inj (hbuilt.symm.trans hr)
    rcases h'.cases_variations later' with ⟨built', hbuilt', hreg'⟩ | ⟨-, hn⟩
    · rw [hbuilt', (hreg.of_perm hp).unique hreg']
    · exact absurd ((hp.map Prod.fst).nodup_iff.mp hreg.nodup) hn
  · simp [he] at hr

end Registers

/-- Versions dispatch to forms. Registering forms, the first of them from some version on or in
every version, fails just where two of them have one version. Otherwise the thing has the versions
that were registered, the newest first, and at each version the form in force is the one of the
newest version that is not newer, or none if all are newer. In whatever order they are registered,
the forms make the same thing. -/
theorem variations_dispatch {α : Type u} :
    (∀ (t : Version) (f : α) (later : List (Version × α)),
      Dispatches ((t, f) :: later) ((since t f).variations later)) ∧
    (∀ (f : α) (later : List (Version × α)),
      Dispatches ((.oldest, f) :: later) ((always f).variations later)) ∧
    ∀ (t t' : Version) (f f' : α) (later later' : List (Version × α)),
      ((t, f) :: later).Perm ((t', f') :: later') → ∀ r,
        (since t f).variations later = .ok r ↔ (since t' f').variations later' = .ok r := by
  refine ⟨fun t f => (Registers.first t f).dispatches,
    fun f => (Registers.first .oldest f).dispatches, fun t t' f f' later later' hp r => ⟨?_, ?_⟩⟩
  · exact (Registers.first t f).variations_of_perm (Registers.first t' f') hp
  · exact (Registers.first t' f').variations_of_perm (Registers.first t f) hp.symm

/-- Two forms later than the first one make the same thing in both orders. At a version between the
two the older one of them is in force. -/
theorem variations_dispatch_orders :
    (∃ r, (always "a").variations [(.v1_19_50, "b"), (.v1_19_80, "c")] = .ok r ∧
      (always "a").variations [(.v1_19_80, "c"), (.v1_19_50, "b")] = .ok r ∧
      r.resolve? .v1_19_70 = some "b") ∧
    ∃ e, (always "a").variations [(.v1_19_50, "b"), (.v1_19_50, "c")] = .error e := by
  obtain ⟨-, halways, horders⟩ := @variations_dispatch String
  have hperm : [(Version.oldest, "a"), (.v1_19_50, "b"), (.v1_19_80, "c")].Perm
      [(.oldest, "a"), (.v1_19_80, "c"), (.v1_19_50, "b")] := .cons _ (.swap ..)
  refine ⟨⟨⟨[(.v1_19_80, "c"), (.v1_19_50, "b"), (.oldest, "a")]⟩, by rfl, ?_, ?_⟩, ?_⟩
  · exact (horders .oldest .oldest "a" "a" _ _ hperm _).mp (by rfl)
  · refine ((halways "a" [(.v1_19_50, "b"), (.v1_19_80, "c")]).resolved _ (by rfl) _ _).mpr ?_
    exact ⟨.v1_19_50, by simp, by decide, by decide⟩
  · exact (halways "a" [(.v1_19_50, "b"), (.v1_19_50, "c")]).refused.mpr (by decide)

end BedrockCommand.Versioned

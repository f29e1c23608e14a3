import ControlFlow.Proofs.Route
import Mathlib.Data.List.Nodup

namespace ControlFlow

open Relation

variable {α : Type} {R : α → α → Prop} {a b c d e r u v : α} {p : List α}

theorem Route.head_mem (h : Route R a b p) : a ∈ p := by
  cases h <;> exact List.mem_cons_self

theorem Route.eq_of_length (h : Route R a b p) (hlen : ¬2 ≤ p.length) : a = b := by
  cases h with
  | here => rfl
  | step _ hp =>
      have := List.length_pos_of_mem hp.head_mem
      simp only [List.length_cons] at hlen
      omega

theorem Route.suffix_of_mem (h : Route R a b p) (hc : c ∈ p) :
    ∃ s, Route R c b s ∧ s <:+ p := by
  induction h with
  | here a =>
      cases List.mem_singleton.mp hc
      exact ⟨[c], .here c, List.suffix_rfl⟩
  | step hxy hp ih =>
      rcases List.mem_cons.mp hc with rfl | hc
      · exact ⟨_, .step hxy hp, List.suffix_rfl⟩
      · obtain ⟨s, hs, hsuffix⟩ := ih hc
        exact ⟨s, hs, hsuffix.trans (List.suffix_cons _ _)⟩

theorem Route.exists_nodup (h : Route R a b p) : ∃ q, Route R a b q ∧ q ⊆ p ∧ q.Nodup := by
  induction h with
  | here a => exact ⟨[a], .here a, List.Subset.refl _, List.nodup_singleton a⟩
  | @step a b c p hab _ ih =>
      obtain ⟨q, hq, hsub, hnodup⟩ := ih
      by_cases ha : a ∈ q
      · obtain ⟨s, hs, hsuffix⟩ := hq.suffix_of_mem ha
        exact ⟨s, hs, fun x hx => List.mem_cons_of_mem _ (hsub (hsuffix.subset hx)),
          hnodup.sublist hsuffix.sublist⟩
      · exact ⟨a :: q, .step hab hq, List.cons_subset_cons _ hsub,
          List.nodup_cons.mpr ⟨ha, hnodup⟩⟩

theorem eq_or_strictlyDominates_iff : a = b ∨ StrictlyDominates R r a b ↔ Dominates R r a b := by
  constructor
  · rintro (rfl | h)
    · exact dominates_self
    · exact h.2
  · exact fun h => or_iff_not_imp_left.mpr fun hne => ⟨hne, h⟩

theorem dominates_root_iff : Dominates R r a r ↔ a = r := by
  constructor
  · exact fun h => List.mem_singleton.mp (h [r] (.here r))
  · rintro rfl
    exact dominates_self

theorem root_dominates : Dominates R r r b :=
  fun _ hp => hp.head_mem

theorem Dominates.of_step (huv : R u v) (hne : a ≠ v) (h : Dominates R r a v) :
    Dominates R r a u := by
  intro p hp
  rcases List.mem_append.mp (h _ (hp.append_step huv)) with ha | ha
  · exact ha
  · exact absurd (List.mem_singleton.mp ha) hne

theorem Dominates.antisymm (hb : ReflTransGen R r b) (hab : Dominates R r a b)
    (hba : Dominates R r b a) : a = b := by
  by_contra hne
  -- the first of the two to be met on a way would have been met before
  have hfree : ∀ x, ReflTransGen R r x → ¬Dominates R r a x := by
    intro x hx
    induction hx with
    | refl =>
        intro h
        exact hne ((dominates_root_iff.mp h).trans (dominates_root_iff.mp (hba.trans h)).symm)
    | @tail y z _ hyz ih =>
        intro h
        by_cases haz : a = z
        · have hbz : b ≠ z := fun e => hne (haz.trans e.symm)
          exact ih (hab.trans ((hba.trans h).of_step hyz hbz))
        · exact ih (h.of_step hyz haz)
  exact hfree b hb hab

theorem Dominates.total (hc : ReflTransGen R r c) (hac : Dominates R r a c)
    (hbc : Dominates R r b c) : Dominates R r a b ∨ Dominates R r b a := by
  induction hc with
  | refl =>
      rw [dominates_root_iff] at hac hbc
      exact .inl (hac.trans hbc.symm ▸ dominates_self)
  | @tail y z _ hyz ih =>
      by_cases haz : a = z
      · exact .inr (haz ▸ hbc)
      · by_cases hbz : b = z
        · exact .inl (hbz ▸ hac)
        · exact ih (hac.of_step hyz haz) (hbc.of_step hyz hbz)

theorem reaches_of_dominates (h : Dominates R r a b) (hb : ReflTransGen R r b) :
    ReflTransGen R r a := by
  obtain ⟨p, hp⟩ := exists_route_iff.mpr hb
  exact hp.reaches_of_mem (h p hp)

theorem Dominates.trans_strictly (hb : ReflTransGen R r b) (hab : Dominates R r a c)
    (hcb : StrictlyDominates R r c b) : StrictlyDominates R r a b := by
  refine ⟨?_, hab.trans hcb.2⟩
  rintro rfl
  exact hcb.1 (Dominates.antisymm hb hcb.2 hab)

theorem IsIdom.unique (hb : ReflTransGen R r b) (hd : IsIdom R r d b) (he : IsIdom R r e b) :
    d = e :=
  Dominates.antisymm (reaches_of_dominates he.1.2 hb) (he.2 d hd.1) (hd.2 e he.1)

theorem IsIdom.dominates_iff (hb : ReflTransGen R r b) (hd : IsIdom R r d b) :
    Dominates R r a d ↔ StrictlyDominates R r a b :=
  ⟨fun h => h.trans_strictly hb hd.1, hd.2 a⟩

def OnFrontier (R : α → α → Prop) (r a b : α) : Prop :=
  (∃ p, ReflTransGen R r p ∧ R p b ∧ Dominates R r a p) ∧ ¬StrictlyDominates R r a b

theorem OnFrontier.reaches (h : OnFrontier R r a b) : ReflTransGen R r b := by
  obtain ⟨⟨p, hp, hpb, -⟩, -⟩ := h
  exact hp.tail hpb

theorem strictlyDominates_of_only (hb : ReflTransGen R r b) (hne : b ≠ r)
    (honly : ∀ q, ReflTransGen R r q → R q b → q = a) : StrictlyDominates R r a b := by
  have hother : ∀ x, ReflTransGen R r x → a = b → x ≠ b := by
    intro x hx hab
    induction hx with
    | refl => exact hne.symm
    | @tail y z hy hyz ih =>
        rintro rfl
        exact ih ((honly y hy hyz).trans hab)
  refine ⟨fun hab => hother b hb hab rfl, ?_⟩
  by_contra hdom
  obtain ⟨hra, hpath⟩ := not_dominates_iff.mp hdom
  rcases hpath.cases_tail with e | ⟨y, hy, hyb⟩
  · exact hne e
  · have hreach : ReflTransGen R r y := ReflTransGen.mono (fun _ _ h => h.1) _ _ hy
    have hya := honly y hreach hyb.1
    rcases hy.cases_tail with e | ⟨_, _, hz⟩
    · exact hra (e.symm.trans hya)
    · exact hz.2 hya

end ControlFlow

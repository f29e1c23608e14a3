import ControlFlow.Proofs.Dominance
import Mathlib.Order.Bounds.Basic

namespace ControlFlow

open Relation

variable {α : Type} {R : α → α → Prop} {a b c d r u v w x y z : α} {p q s t : List α}

/-- Walks of one step or more from `x` and from `y` to `z`. Where they share a vertex, one of them
has arrived. -/
def Converge (R : α → α → Prop) (x y z : α) : Prop :=
  ∃ p q, Route R x z p ∧ Route R y z q ∧ 2 ≤ p.length ∧ 2 ≤ q.length ∧
    ∀ i j c, p[i]? = some c → q[j]? = some c → i + 1 = p.length ∨ j + 1 = q.length

/-- `J` has every vertex where walks from two members of `S` or `J` converge. -/
def JoinClosed (R : α → α → Prop) (S J : Set α) : Prop :=
  ∀ x y z, x ∈ S ∪ J → y ∈ S ∪ J → x ≠ y → Converge R x y z → z ∈ J

inductive IteratedFrontier (R : α → α → Prop) (r : α) (S : Set α) : α → Prop
  | start {a b : α} : a ∈ S → OnFrontier R r a b → IteratedFrontier R r S b
  | next {a b : α} : IteratedFrontier R r S a → OnFrontier R r a b → IteratedFrontier R r S b

theorem IteratedFrontier.reaches {S : Set α} (h : IteratedFrontier R r S b) :
    ReflTransGen R r b := by
  cases h with
  | start _ h => exact h.reaches
  | next _ h => exact h.reaches

theorem Route.getElem?_last (h : Route R a b p) {i : Nat} (hc : p[i]? = some c)
    (hi : i + 1 = p.length) : c = b := by
  induction h generalizing i with
  | here a =>
      obtain rfl : i = 0 := by simpa using hi
      simpa using hc.symm
  | @step a b d p _ hp ih =>
      cases i with
      | zero =>
          have hlen : p.length = 0 := by simpa using hi.symm
          rw [List.length_eq_zero_iff.mp hlen] at hp
          cases hp
      | succ i => exact ih (by simpa using hc) (by simpa using hi)

section Joins

theorem Dominates.exists_inner_route (hp : ReflTransGen R r b) (h : Dominates R r a b) :
    ∃ p, Route R a b p ∧ ∀ c ∈ p, Dominates R r a c := by
  induction hp with
  | refl =>
      obtain rfl := dominates_root_iff.mp h
      exact ⟨[a], .here a, fun c hc => List.mem_singleton.mp hc ▸ dominates_self⟩
  | @tail y z _ hyz ih =>
      by_cases haz : a = z
      · subst haz
        exact ⟨[a], .here a, fun c hc => List.mem_singleton.mp hc ▸ dominates_self⟩
      · obtain ⟨p, hp, hall⟩ := ih (h.of_step hyz haz)
        refine ⟨p ++ [z], hp.append_step hyz, fun c hc => ?_⟩
        rcases List.mem_append.mp hc with hc | hc
        · exact hall c hc
        · exact List.mem_singleton.mp hc ▸ h

theorem exists_outer_route (h : ¬Dominates R r a b) :
    ∃ p, Route R r b p ∧ ∀ c ∈ p, ¬Dominates R r a c := by
  obtain ⟨hne, hpath⟩ := not_dominates_iff.mp h
  clear h
  induction hpath with
  | refl =>
      refine ⟨[r], .here r, fun c hc h => ?_⟩
      rw [List.mem_singleton.mp hc] at h
      exact hne (dominates_root_iff.mp h).symm
  | @tail y z hy hyz ih =>
      obtain ⟨p, hp, hall⟩ := ih
      refine ⟨p ++ [z], hp.append_step hyz.1, fun c hc => ?_⟩
      rcases List.mem_append.mp hc with hc | hc
      · exact hall c hc
      · rw [List.mem_singleton.mp hc]
        exact not_dominates_iff.mpr ⟨hne, hy.tail hyz⟩

theorem exists_outer_pred (hb : ReflTransGen R r b) (hbr : b ≠ r)
    (h : ¬StrictlyDominates R r a b) (har : a ≠ r) : ∃ v, R v b ∧ ¬Dominates R r a v := by
  by_cases hab : a = b
  · subst hab
    have hfirst : ∀ x, ReflTransGen R r x → ¬Dominates R r a x ∨ ∃ v, R v a ∧ ¬Dominates R r a v := by
      intro x hx
      induction hx with
      | refl => exact .inl fun h => har (dominates_root_iff.mp h)
      | @tail y z _ hyz ih =>
          rcases ih with hy | hv
          · by_cases haz : a = z
            · exact .inr ⟨y, haz ▸ hyz, hy⟩
            · exact .inl fun h => hy (h.of_step hyz haz)
          · exact .inr hv
    rcases hfirst a hb with h | hv
    · exact absurd dominates_self h
    · exact hv
  · have hnot : ¬Dominates R r a b := fun h' => h ⟨hab, h'⟩
    obtain ⟨hne, hpath⟩ := not_dominates_iff.mp hnot
    rcases hpath.cases_tail with e | ⟨v, hv, hvb⟩
    · exact absurd e hbr
    · exact ⟨v, hvb.1, not_dominates_iff.mpr ⟨hne, hv⟩⟩

theorem converge_of_disjoint (hp : Route R x u p) (hu : R u z) (hq : Route R y v q) (hv : R v z)
    (hdisj : ∀ c ∈ p, c ∉ q) : Converge R x y z := by
  have hlen : ∀ {a b : α} {w : List α}, Route R a b w → 1 ≤ w.length := fun h =>
    List.length_pos_of_mem h.head_mem
  refine ⟨p ++ [z], q ++ [z], hp.append_step hu, hq.append_step hv, ?_, ?_, ?_⟩
  · have := hlen hp
    simpa using this
  · have := hlen hq
    simpa using this
  · intro i j c hi hj
    rw [List.length_append, List.length_append, List.length_singleton]
    by_contra hmeet
    obtain ⟨hip, hjq⟩ := not_or.mp hmeet
    have hbefore : ∀ {w : List α} {k : Nat}, (w ++ [z])[k]? = some c → ¬k + 1 = w.length + 1 →
        c ∈ w := by
      intro w k hk hne
      obtain ⟨hlt, -⟩ := List.getElem?_eq_some_iff.mp hk
      rw [List.length_append, List.length_singleton] at hlt
      rw [List.getElem?_append_left (by omega)] at hk
      exact List.mem_of_getElem? hk
    exact hdisj c (hbefore hi hip) (hbefore hj hjq)

theorem OnFrontier.converge (h : OnFrontier R r a b) (hroot : ∀ p, ReflTransGen R r p → ¬R p r) :
    a ≠ r ∧ Converge R r a b := by
  obtain ⟨⟨p, hp, hpb, hap⟩, hnot⟩ := h
  have hbr : b ≠ r := fun e => hroot p hp (e ▸ hpb)
  have har : a ≠ r := by
    rintro rfl
    exact hnot ⟨hbr.symm, root_dominates⟩
  obtain ⟨v, hvb, hv⟩ := exists_outer_pred (hp.tail hpb) hbr hnot har
  obtain ⟨s, hs, hinner⟩ := hap.exists_inner_route hp
  obtain ⟨t, ht, houter⟩ := exists_outer_route hv
  exact ⟨har, converge_of_disjoint ht hvb hs hpb fun c hct hcs => houter c hct (hinner c hcs)⟩

end Joins

section Meetings

variable {D : Set α} (hD : ∀ a b, a ∈ D → OnFrontier R r a b → b ∈ D)

include hD

theorem exists_anchor (hp : Route R x z p) (hx : ReflTransGen R r x) (ha : a ∈ D)
    (hax : Dominates R r a x) (hlen : 2 ≤ p.length) :
    (∃ b ∈ D, OnFrontier R r b z) ∨ StrictlyDominates R r a z ∨
      ∃ b ∈ D, StrictlyDominates R r b z ∧ ∃ s, s <:+ p ∧ Route R b z s := by
  induction hp generalizing a with
  | here x => simp at hlen
  | @step x y z p hxy hp ih =>
      have hy : ReflTransGen R r y := hx.tail hxy
      by_cases hay : StrictlyDominates R r a y
      · by_cases hmore : 2 ≤ p.length
        · rcases ih hy ha hay.2 hmore with hb | haz | ⟨b, hb, hbz, s, hs, hroute⟩
          · exact .inl hb
          · exact .inr (.inl haz)
          · exact .inr (.inr ⟨b, hb, hbz, s, hs.trans (List.suffix_cons x p), hroute⟩)
        · obtain rfl := hp.eq_of_length hmore
          exact .inr (.inl hay)
      · have hfront : OnFrontier R r a y := ⟨⟨x, hx, hxy, hax⟩, hay⟩
        by_cases hmore : 2 ≤ p.length
        · have hyD := hD a y ha hfront
          rcases ih hy hyD dominates_self hmore with hb | hyz | ⟨b, hb, hbz, s, hs, hroute⟩
          · exact .inl hb
          · exact .inr (.inr ⟨y, hyD, hyz, p, List.suffix_cons x p, hp⟩)
          · exact .inr (.inr ⟨b, hb, hbz, s, hs.trans (List.suffix_cons x p), hroute⟩)
        · obtain rfl := hp.eq_of_length hmore
          exact .inl ⟨a, ha, hfront⟩

omit hD in
theorem exists_shared_of_dominates (hb : ReflTransGen R r b) (haz : StrictlyDominates R r a z)
    (hbz : StrictlyDominates R r b z) (hab : Dominates R r a b) (hs : Route R a z s)
    (ht : Route R b z t) : ∃ c, c ∈ s ∧ c ∈ t ∧ c ≠ z := by
  by_cases heq : a = b
  · exact ⟨a, hs.head_mem, heq ▸ ht.head_mem, haz.1⟩
  · refine ⟨b, ?_, ht.head_mem, hbz.1⟩
    -- otherwise a way to `a` that keeps off `b` could go on along `s`
    by_contra hbs
    have hba : ¬Dominates R r b a := fun h => heq (Dominates.antisymm hb hab h)
    obtain ⟨-, hpath⟩ := exists_route_avoiding_iff.mp ⟨s, hs, hbs⟩
    exact not_dominates_of_path hba hpath hbz.2

omit hD in
theorem Converge.eq_of_mem (hp : Route R x z p) (hq : Route R y z q)
    (hmeet : ∀ i j c, p[i]? = some c → q[j]? = some c → i + 1 = p.length ∨ j + 1 = q.length)
    (hcp : c ∈ p) (hcq : c ∈ q) : c = z := by
  obtain ⟨i, hi⟩ := List.mem_iff_getElem?.mp hcp
  obtain ⟨j, hj⟩ := List.mem_iff_getElem?.mp hcq
  rcases hmeet i j c hi hj with hlast | hlast
  · exact hp.getElem?_last hi hlast
  · exact hq.getElem?_last hj hlast

theorem exists_frontier_of_converge (hreach : ∀ a ∈ D, ReflTransGen R r a) (hx : x ∈ D)
    (hy : y ∈ D) (h : Converge R x y z) : ∃ a ∈ D, OnFrontier R r a z := by
  by_contra hnone
  obtain ⟨p, q, hp, hq, hlenp, hlenq, hmeet⟩ := h
  have hanchor : ∀ {w : α} {p : List α}, w ∈ D → Route R w z p → 2 ≤ p.length →
      ∃ a ∈ D, StrictlyDominates R r a z ∧ ∃ s, s <:+ p ∧ Route R a z s := by
    intro w p hw hp hlen
    rcases exists_anchor hD hp (hreach w hw) hw dominates_self hlen with h | hwz | h
    · exact absurd h hnone
    · exact ⟨w, hw, hwz, p, List.suffix_rfl, hp⟩
    · exact h
  obtain ⟨a, ha, haz, s, hsp, hs⟩ := hanchor hx hp hlenp
  obtain ⟨b, hb, hbz, t, htq, ht⟩ := hanchor hy hq hlenq
  have hz : ReflTransGen R r z := (hreach x hx).trans (exists_route_iff.mp ⟨p, hp⟩)
  have hshared : ∃ c, c ∈ s ∧ c ∈ t ∧ c ≠ z := by
    rcases Dominates.total hz haz.2 hbz.2 with hab | hba
    · exact exists_shared_of_dominates (hreach b hb) haz hbz hab hs ht
    · obtain ⟨c, hct, hcs, hcz⟩ := exists_shared_of_dominates (hreach a ha) hbz haz hba ht hs
      exact ⟨c, hcs, hct, hcz⟩
  obtain ⟨c, hcs, hct, hcz⟩ := hshared
  exact hcz (Converge.eq_of_mem hp hq hmeet (hsp.subset hcs) (htq.subset hct))

end Meetings

theorem isLeast_iteratedFrontier {S : Set α} (hS : ∀ a ∈ S, ReflTransGen R r a) (hr : r ∈ S)
    (hroot : ∀ p, ReflTransGen R r p → ¬R p r) :
    IsLeast {J : Set α | (∀ b ∈ J, ReflTransGen R r b) ∧ JoinClosed R S J}
      {b | IteratedFrontier R r S b} := by
  refine ⟨⟨fun b hb => hb.reaches, ?_⟩, ?_⟩
  · intro x y z hx hy _ hxyz
    have hreach : ∀ a ∈ S ∪ {b | IteratedFrontier R r S b}, ReflTransGen R r a := by
      rintro a (ha | ha)
      · exact hS a ha
      · exact ha.reaches
    have hnext : ∀ a b, a ∈ S ∪ {b | IteratedFrontier R r S b} → OnFrontier R r a b →
        IteratedFrontier R r S b := by
      rintro a b (ha | ha) hab
      · exact .start ha hab
      · exact .next ha hab
    obtain ⟨a, ha, haz⟩ :=
      exists_frontier_of_converge (fun a b ha hab => .inr (hnext a b ha hab)) hreach hx hy hxyz
    exact hnext a z ha haz
  · rintro J ⟨-, hJ⟩ b hb
    have hjoin : ∀ a b, a ∈ S ∪ J → OnFrontier R r a b → b ∈ J := by
      intro a b ha hab
      obtain ⟨har, hconverge⟩ := hab.converge hroot
      exact hJ r a b (.inl hr) ha har.symm hconverge
    induction hb with
    | start ha hab => exact hjoin _ _ (.inl ha) hab
    | next _ hab ih => exact hjoin _ _ (.inr ih) hab

end ControlFlow

import ControlFlow.Proofs.Route

namespace ControlFlow

open Relation

variable {α : Type} {R R' R'' : α → α → Prop} {keep keep' : α → Bool} {a b r s x : α} {p : List α}

theorem Route.forall_mem {P : α → Prop} (h : Route R a b p) (hP : ∀ u v, R u v → P u → P v)
    (ha : P a) : ∀ c ∈ p, P c := by
  induction h with
  | here a => exact List.forall_mem_singleton.mpr ha
  | step hab _ ih => exact List.forall_mem_cons.mpr ⟨ha, ih (hP _ _ hab ha)⟩

def Condenses (R R' : α → α → Prop) (keep : α → Bool) : Prop :=
  ∀ a b p, keep a = true → keep b = true →
    (Route R' a b p ↔ ∃ q, Route R a b q ∧ q.filter keep = p)

namespace Condenses

theorem refl (hkeep : ∀ u v, R u v → keep u = true → keep v = true) : Condenses R R keep := by
  intro a b p ha _
  have hall : ∀ q, Route R a b q → q.filter keep = q := fun q hq =>
    List.filter_eq_self.mpr (hq.forall_mem hkeep ha)
  constructor
  · exact fun hp => ⟨p, hp, hall p hp⟩
  · rintro ⟨q, hq, rfl⟩
    rwa [hall q hq]

theorem trans (h : Condenses R R' keep) (h' : Condenses R' R'' keep')
    (hle : ∀ c, keep' c = true → keep c = true) : Condenses R R'' keep' := by
  intro a b p ha hb
  have hfilter : ∀ q : List α, (q.filter keep).filter keep' = q.filter keep' := by
    intro q
    rw [List.filter_filter]
    refine List.filter_congr fun c _ => ?_
    cases hc : keep' c with
    | false => rfl
    | true => rw [hle c hc, Bool.and_self]
  rw [h' a b p ha hb]
  constructor
  · rintro ⟨q', hq', rfl⟩
    obtain ⟨q, hq, rfl⟩ := (h a b q' (hle a ha) (hle b hb)).mp hq'
    exact ⟨q, hq, (hfilter q).symm⟩
  · rintro ⟨q, hq, rfl⟩
    exact ⟨q.filter keep, (h a b _ (hle a ha) (hle b hb)).mpr ⟨q, hq, rfl⟩, hfilter q⟩

variable (h : Condenses R R' keep) (ha : keep a = true) (hb : keep b = true)

include h ha hb

theorem reaches_iff : ReflTransGen R' a b ↔ ReflTransGen R a b := by
  rw [← exists_route_iff, ← exists_route_iff]
  constructor
  · rintro ⟨p, hp⟩
    obtain ⟨q, hq, -⟩ := (h a b p ha hb).mp hp
    exact ⟨q, hq⟩
  · rintro ⟨q, hq⟩
    exact ⟨_, (h a b _ ha hb).mpr ⟨q, hq, rfl⟩⟩

theorem dominates_iff (hr : keep r = true) : Dominates R' r a b ↔ Dominates R r a b := by
  constructor
  · intro hdom q hq
    exact (List.mem_filter.mp (hdom _ ((h r b _ hr hb).mpr ⟨q, hq, rfl⟩))).1
  · intro hdom p hp
    obtain ⟨q, hq, rfl⟩ := (h r b p hr hb).mp hp
    exact List.mem_filter.mpr ⟨hdom q hq, ha⟩

end Condenses

/-- `R'` is `R` with `x` taken out, which leads to `s` and nowhere else: what led to `x` leads to `s`
instead. -/
structure Contracts (R R' : α → α → Prop) (x s : α) : Prop where
  leads_iff : ∀ v, R x v ↔ v = s
  ne : s ≠ x
  step_iff : ∀ u v, R' u v ↔ (R u v ∧ u ≠ x ∧ v ≠ x) ∨ (R u x ∧ v = s)

namespace Contracts

variable [DecidableEq α] (h : Contracts R R' x s)

include h

theorem route_filter (hp : Route R a b p) (hb : b ≠ x) :
    Route R' (if a = x then s else a) b (p.filter (· ≠ x)) := by
  induction hp with
  | here a =>
      rw [if_neg hb, List.filter_cons_of_pos (by simpa using hb)]
      exact .here a
  | @step a c b p hac _ ih =>
      by_cases ha : a = x
      · subst ha
        obtain rfl := (h.leads_iff c).mp hac
        rw [if_pos rfl, List.filter_cons_of_neg (by simp)]
        simpa [h.ne] using ih hb
      · rw [if_neg ha, List.filter_cons_of_pos (by simpa using ha)]
        refine .step ((h.step_iff a _).mpr ?_) (ih hb)
        by_cases hc : c = x
        · exact .inr ⟨hc ▸ hac, if_pos hc⟩
        · rw [if_neg hc]
          exact .inl ⟨hac, ha, hc⟩

theorem exists_route (hp : Route R' a b p) (ha : a ≠ x) :
    ∃ q, Route R a b q ∧ q.filter (· ≠ x) = p := by
  induction hp with
  | here a => exact ⟨[a], .here a, List.filter_cons_of_pos (by simpa using ha)⟩
  | @step a c b p hac _ ih =>
      rcases (h.step_iff a c).mp hac with ⟨hac, -, hc⟩ | ⟨hax, rfl⟩
      · obtain ⟨q, hq, rfl⟩ := ih hc
        exact ⟨a :: q, .step hac hq, List.filter_cons_of_pos (by simpa using ha)⟩
      · obtain ⟨q, hq, rfl⟩ := ih h.ne
        refine ⟨a :: x :: q, .step hax (.step ((h.leads_iff c).mpr rfl) hq), ?_⟩
        rw [List.filter_cons_of_pos (by simpa using ha), List.filter_cons_of_neg (by simp)]

theorem condenses : Condenses R R' (· ≠ x) := by
  intro a b p ha hb
  rw [decide_eq_true_eq] at ha hb
  constructor
  · exact fun hp => h.exists_route hp ha
  · rintro ⟨q, hq, rfl⟩
    simpa [ha] using h.route_filter hq hb

end Contracts

end ControlFlow

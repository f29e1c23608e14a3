import ControlFlow.Proofs.Contraction
import ControlFlow.Proofs.Flowgraph.Bypass

namespace ControlFlow

open Flowgraph

variable {π : Type} {b c p s t u v : BlockId} {g g' k : Flowgraph π}

namespace Flowgraph

structure Diverted (g : Flowgraph π) (b s : BlockId) (k : Flowgraph π) : Prop where
  core?_eq : ∀ c, k.core? c = g.core? c
  roles : SameRoles g k
  holds_block : ∀ u, k.edges.Holds u b → g.edges.Holds u b
  holds_iff : ∀ u v, v ≠ b → (k.edges.Holds u v ↔
    g.edges.Holds u v ∨ (v = s ∧ g.edges.Holds u b ∧ ¬k.edges.Holds u b))

theorem Diverted.refl (g : Flowgraph π) (b s : BlockId) : g.Diverted b s g where
  core?_eq _ := rfl
  roles := .refl g
  holds_block _ h := h
  holds_iff _ _ _ := (or_iff_left fun h => h.2.2 h.2.1).symm

theorem Diverted.redirectSuccessor (h : g.Diverted b s k) (hp : k.edges.Holds p b) (hne : b ≠ s) :
    g.Diverted b s (k.redirectSuccessor p b s) where
  core?_eq c := core?_redirectSuccessor.trans (h.core?_eq c)
  roles := h.roles.trans sameRoles_redirectSuccessor
  holds_block u hu := by
    rw [holds_redirectSuccessor] at hu
    rcases hu with hu | hu
    · exact h.holds_block u hu.1
    · exact absurd hu.2 hne
  holds_iff u v hv := by
    have hpb := h.holds_block p hp
    have hold := h.holds_iff u v hv
    rw [holds_redirectSuccessor]
    simp only [including, excluding, hv, hne, and_false, not_false_eq_true, and_true, or_false]
    by_cases hup : u = p
    · subst hup
      rw [hold]
      simp only [hp, hpb, not_true_eq_false, and_false, or_false, true_and, and_self,
        not_false_eq_true, and_true]
    · simpa [hup] using hold

theorem succs_eq_singleton_iff (hg : Consistent g) :
    g.succs b = [s] ↔ ∀ v, g.view.Step b v ↔ v = s := by
  constructor
  · intro h v
    change v ∈ g.succs b ↔ v = s
    rw [h, List.mem_singleton]
  · intro h
    refine List.perm_singleton.mp ?_
    rw [List.perm_ext_iff_of_nodup (hg.nodup_succs b) (List.nodup_singleton s)]
    exact fun v => (h v).trans List.mem_singleton.symm

theorem bypassable_iff_step (hg : Consistent g) :
    g.Bypassable b s ↔ g.Idle b ∧ (∃ p, g.view.Step p b) ∧ (∀ v, g.view.Step b v ↔ v = s) ∧
      b ≠ s ∧ ∀ p, g.view.Step p b → g.isTest p = true → ¬g.view.Step p s := by
  have hpreds : ∀ p, p ∈ g.preds b ↔ g.view.Step p b := fun p =>
    hg.mem_preds_iff.trans hg.step_iff.symm
  constructor
  · rintro ⟨hidle, hfed, hsuccs, hne, hapart⟩
    obtain ⟨p, hp⟩ := List.exists_mem_of_ne_nil _ hfed
    exact ⟨hidle, ⟨p, (hpreds p).mp hp⟩, (succs_eq_singleton_iff hg).mp hsuccs, hne,
      fun p hp => hapart p ((hpreds p).mpr hp)⟩
  · rintro ⟨hidle, ⟨p, hp⟩, hsuccs, hne, hapart⟩
    exact ⟨hidle, List.ne_nil_of_mem ((hpreds p).mpr hp), (succs_eq_singleton_iff hg).mpr hsuccs,
      hne, fun p hp => hapart p ((hpreds p).mp hp)⟩

structure Bypassed (g : Flowgraph π) (b s : BlockId) (g' : Flowgraph π) : Prop where
  bypassable : g.Bypassable b s
  consistent : Consistent g'
  core?_eq : ∀ c, g'.core? c = if c = b then none else g.core? c
  entry : g'.entry = g.entry
  exit : g'.exit = g.exit
  contracts : Contracts g.view.Step g'.view.Step b s

def Branches (g : Flowgraph π) (b : BlockId) : Prop :=
  ∃ u v, g.view.Step b u ∧ g.view.Step b v ∧ u ≠ v

theorem Branches.two_le (h : g.Branches b) : 2 ≤ (g.succs b).length := by
  obtain ⟨u, v, hu, hv, hne⟩ := h
  have hu : u ∈ g.succs b := hu
  have hv : v ∈ g.succs b := hv
  rcases hsuccs : g.succs b with _ | ⟨w, _ | ⟨w', ws⟩⟩
  · simp [hsuccs] at hu
  · simp only [hsuccs, List.mem_singleton] at hu hv
    exact absurd (hu.trans hv.symm) hne
  · exact Nat.le_add_left 2 ws.length

namespace Bypassed

variable (h : g.Bypassed b s g')

include h

theorem live_iff : g'.Live c ↔ g.Live c ∧ c ≠ b := by
  rw [live_iff_isSome_core?, live_iff_isSome_core?, h.core?_eq]
  split <;> simp_all

theorem core?_of_ne (hc : c ≠ b) : g'.core? c = g.core? c := by
  rw [h.core?_eq, if_neg hc]

theorem branches (hbranches : g'.Branches c) : g.Branches c := by
  obtain ⟨u, v, hu, hv, hne⟩ := hbranches
  rw [h.contracts.step_iff] at hu hv
  rcases hu with ⟨hu, -, hub⟩ | ⟨hu, rfl⟩ <;> rcases hv with ⟨hv, -, hvb⟩ | ⟨hv, rfl⟩
  · exact ⟨u, v, hu, hv, hne⟩
  · exact ⟨u, b, hu, hv, hub⟩
  · exact ⟨b, v, hu, hv, Ne.symm hvb⟩
  · exact absurd rfl hne

theorem length_ids : g'.ids.length + 1 = g.ids.length := by
  have hperm : g'.ids.Perm (g.ids.erase b) := by
    rw [List.perm_ext_iff_of_nodup g'.nodup_ids (g.nodup_ids.erase b)]
    intro c
    rw [g.nodup_ids.mem_erase_iff, mem_ids, mem_ids, h.live_iff, and_comm]
  have hb : b ∈ g.ids := mem_ids.mpr h.bypassable.live
  rw [hperm.length_eq, List.length_erase_of_mem hb]
  exact Nat.sub_add_cancel (List.length_pos_of_mem hb)

theorem isTest_eq (hc : c ≠ b) : g'.isTest c = g.isTest c :=
  isTest_of_core?_eq (h.core?_of_ne hc)

theorem fed (hp : g'.view.Step p c) : ∃ q, g.view.Step q c := by
  rcases (h.contracts.step_iff p c).mp hp with ⟨hp, -⟩ | ⟨-, rfl⟩
  · exact ⟨p, hp⟩
  · exact ⟨b, (h.contracts.leads_iff c).mpr rfl⟩

theorem bypassable_of_beside (hg : Consistent g) (hc : g'.Bypassable c t)
    (hbeside : ¬g.view.Step c b) : g.Bypassable c t := by
  have hcb : c ≠ b := (h.live_iff.mp hc.live).2
  obtain ⟨hidle, ⟨p, hp⟩, hsuccs, hne, hapart⟩ := (bypassable_iff_step h.consistent).mp hc
  have hstep := h.contracts.step_iff
  have hleads := h.contracts.leads_iff
  have hsame : ∀ v, g.view.Step c v ↔ v = t := by
    intro v
    rw [← hsuccs, hstep]
    refine ⟨fun hv => .inl ⟨hv, hcb, fun e => hbeside (e ▸ hv)⟩, ?_⟩
    rintro (hv | hv)
    · exact hv.1
    · exact absurd hv.1 hbeside
  have htb : t ≠ b := fun e => hbeside (e ▸ (hsame t).mpr rfl)
  refine (bypassable_iff_step hg).mpr
    ⟨(idle_iff_of_core?_eq (h.core?_of_ne hcb)).mp hidle, h.fed hp, hsame, hne, ?_⟩
  intro p hp htest hpt
  have hpb : p ≠ b := by
    rintro rfl
    exact hne (((hleads c).mp hp).trans ((hleads t).mp hpt).symm)
  exact hapart p ((hstep p c).mpr (.inl ⟨hp, hpb, hcb⟩)) (h.isTest_eq hpb ▸ htest)
    ((hstep p t).mpr (.inl ⟨hpt, hpb, htb⟩))

theorem of_bypassable_through (hg : Consistent g) (hc : g'.Bypassable c t)
    (hthrough : g.view.Step c b) : g.Bypassable c b ∨ (g.isTest c = false ∧ g.Branches c) := by
  have hcb : c ≠ b := (h.live_iff.mp hc.live).2
  obtain ⟨hidle, ⟨p, hp⟩, hsuccs, hne, hapart⟩ := (bypassable_iff_step h.consistent).mp hc
  obtain ⟨-, -, hleads, -, hforks⟩ := (bypassable_iff_step hg).mp h.bypassable
  have hstep := h.contracts.step_iff
  obtain rfl : s = t := (hsuccs s).mp ((hstep c s).mpr (.inr ⟨hthrough, rfl⟩))
  by_cases hother : ∃ v, g.view.Step c v ∧ v ≠ b
  · obtain ⟨v, hv, hvb⟩ := hother
    refine .inr ⟨?_, v, b, hv, hthrough, hvb⟩
    obtain rfl := (hsuccs v).mp ((hstep c v).mpr (.inl ⟨hv, hcb, hvb⟩))
    by_contra htest
    exact hforks c hthrough (Bool.not_eq_false _ ▸ htest) hv
  · have honly : ∀ v, g.view.Step c v ↔ v = b := by
      intro v
      constructor
      · intro hv
        by_contra hvb
        exact hother ⟨v, hv, hvb⟩
      · rintro rfl
        exact hthrough
    refine .inl ((bypassable_iff_step hg).mpr
      ⟨(idle_iff_of_core?_eq (h.core?_of_ne hcb)).mp hidle, h.fed hp, honly, hcb, ?_⟩)
    intro p hp htest hpthrough
    have hpb : p ≠ b := by
      rintro rfl
      exact hne ((hleads c).mp hp)
    exact hapart p ((hstep p c).mpr (.inl ⟨hp, hpb, hcb⟩)) (h.isTest_eq hpb ▸ htest)
      ((hstep p s).mpr (.inr ⟨hpthrough, rfl⟩))

theorem of_bypassable (hg : Consistent g) (hc : g'.Bypassable c t) :
    (∃ t, g.Bypassable c t) ∨ (g.isTest c = false ∧ g.Branches c) := by
  by_cases hthrough : g.view.Step c b
  · exact (h.of_bypassable_through hg hc hthrough).imp_left fun hb => ⟨b, hb⟩
  · exact .inl ⟨t, h.bypassable_of_beside hg hc hthrough⟩

end Bypassed

end Flowgraph

namespace Edit

theorem exists_bypassed (hg : Consistent g) (h : g.Bypassable b s) :
    ∃ g', (bypass b).exec g = (.ok true, g') ∧ g.Bypassed b s g' := by
  obtain ⟨k, y, heq, hy, hk, hdrained, hdiverted⟩ :=
    exec_bypass_of_bypassable hg h (Diverted.refl g b s) fun k p hk hp hne _ _ hdiverted =>
      hdiverted.redirectSuccessor (hk.mem_succs_iff.mp hp) hne
  refine ⟨k.remove b y, heq, h, hk.remove hy, fun c => ?_, ?_, ?_, ?_⟩
  · rw [core?_remove, hdiverted.core?_eq]
  · rw [entry_remove, hdiverted.roles.entry, if_neg (h.idle.ne_entry hg)]
  · rw [exit_remove, hdiverted.roles.exit, if_neg (h.idle.ne_exit hg)]
  · have hnone : ∀ u, ¬k.edges.Holds u b := by
      intro u hu
      rw [← hk.mem_preds_iff, hdrained] at hu
      exact List.not_mem_nil hu
    have hleads : ∀ v, g.edges.Holds b v ↔ v = s := by
      intro v
      rw [← hg.mem_succs_iff, h.succs_eq, List.mem_singleton]
    refine ⟨fun v => hg.step_iff.trans (hleads v), h.ne.symm, fun u v => ?_⟩
    rw [(hk.remove hy).step_iff, hk.holds_remove hy, hg.step_iff, hg.step_iff]
    by_cases hv : v = b
    · subst hv
      simp [h.ne]
    · rw [hdiverted.holds_iff u v hv]
      by_cases hu : u = b
      · subst hu
        simp [hleads, h.ne]
      · simp [hu, hv, hnone, and_comm]

end Edit

end ControlFlow

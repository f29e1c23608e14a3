import ControlFlow.Proofs.Flowgraph.Bypassed
import Mathlib

namespace ControlFlow

open Relation Flowgraph

variable {π : Type} {b c s t : BlockId} {bs : List BlockId} {n : Nat} {g g' k : Flowgraph π}

namespace Flowgraph

inductive BypassRun : Flowgraph π → List BlockId → Nat → Flowgraph π → Prop
  | done (g : Flowgraph π) : BypassRun g [] 0 g
  | keep {g g' : Flowgraph π} {b : BlockId} {bs : List BlockId} {n : Nat}
      (h : ∀ s, ¬g.Bypassable b s) (hrest : BypassRun g bs n g') : BypassRun g (b :: bs) n g'
  | take {g k g' : Flowgraph π} {b s : BlockId} {bs : List BlockId} {n : Nat}
      (h : g.Bypassed b s k) (hrest : BypassRun k bs n g') : BypassRun g (b :: bs) (n + 1) g'

namespace BypassRun

theorem consistent (h : BypassRun g bs n g') (hg : Consistent g) : Consistent g' := by
  induction h with
  | done g => exact hg
  | keep _ _ ih => exact ih hg
  | take hk _ ih => exact ih hk.consistent

theorem entry_eq (h : BypassRun g bs n g') : g'.entry = g.entry := by
  induction h with
  | done g => rfl
  | keep _ _ ih => exact ih
  | take hk _ ih => exact ih.trans hk.entry

theorem exit_eq (h : BypassRun g bs n g') : g'.exit = g.exit := by
  induction h with
  | done g => rfl
  | keep _ _ ih => exact ih
  | take hk _ ih => exact ih.trans hk.exit

theorem core?_eq (h : BypassRun g bs n g') (hb : g'.Live b) : g'.core? b = g.core? b := by
  induction h with
  | done g => rfl
  | keep _ _ ih => exact ih hb
  | @take g k g' c s bs n hk _ ih =>
      have hlive : k.Live b := by
        rwa [live_iff_isSome_core?, ← ih hb, ← live_iff_isSome_core?]
      exact (ih hb).trans (hk.core?_of_ne (hk.live_iff.mp hlive).2)

theorem live_of_live (h : BypassRun g bs n g') (hb : g'.Live b) : g.Live b := by
  rwa [live_iff_isSome_core?, ← h.core?_eq hb, ← live_iff_isSome_core?]

theorem branches (h : BypassRun g bs n g') (hb : g'.Branches b) : g.Branches b := by
  induction h with
  | done g => exact hb
  | keep _ _ ih => exact ih hb
  | take hk _ ih => exact hk.branches (ih hb)

theorem length_ids (h : BypassRun g bs n g') : n + g'.ids.length = g.ids.length := by
  induction h with
  | done g => exact Nat.zero_add _
  | keep _ _ ih => exact ih
  | take hk _ ih =>
      rw [Nat.add_right_comm, ih, hk.length_ids]

theorem condenses (h : BypassRun g bs n g') (hg : Consistent g) :
    Condenses g.view.Step g'.view.Step (g'.Live ·) := by
  induction h with
  | done g =>
      refine .refl fun u v huv _ => ?_
      rw [decide_eq_true_eq]
      exact (hg.ends u v (hg.step_iff.mp huv)).2
  | keep _ _ ih => exact ih hg
  | take hk hrest ih =>
      refine hk.contracts.condenses.trans (ih hk.consistent) fun c hc => ?_
      rw [decide_eq_true_eq] at hc ⊢
      exact (hk.live_iff.mp (hrest.live_of_live hc)).2

theorem of_zero (h : BypassRun g bs 0 g') : g' = g ∧ ∀ b ∈ bs, ∀ s, ¬g.Bypassable b s := by
  generalize hn : 0 = n at h
  induction h with
  | done g => exact ⟨rfl, fun b hb => absurd hb List.not_mem_nil⟩
  | keep hkeep _ ih => exact ⟨(ih hn).1, List.forall_mem_cons.mpr ⟨hkeep, (ih hn).2⟩⟩
  | take _ _ _ => cases hn

theorem eq_zero (h : BypassRun g bs n g') (hnone : ∀ b s, ¬g.Bypassable b s) : n = 0 := by
  induction h with
  | done g => rfl
  | keep _ _ ih => exact ih hnone
  | take hk _ _ => exact absurd hk.bypassable (hnone _ _)

theorem of_bypassable (h : BypassRun g bs n g') (hg : Consistent g) (hb : g'.Bypassable b s)
    (hvisited : b ∈ bs ∨ ∀ t, ¬g.Bypassable b t) : g.isTest b = false ∧ g.Branches b := by
  induction h with
  | done g =>
      exact absurd hb (hvisited.resolve_left List.not_mem_nil s)
  | @keep g g' c bs n hkeep _ ih =>
      refine ih hg hb ?_
      rcases hvisited with hbc | hnone
      · rcases List.mem_cons.mp hbc with rfl | hbs
        · exact .inr hkeep
        · exact .inl hbs
      · exact .inr hnone
  | @take g k g' c t bs n hk hrest ih =>
      have hne : b ≠ c := (hk.live_iff.mp (hrest.live_of_live hb.live)).2
      have hback : k.isTest b = false ∧ k.Branches b → g.isTest b = false ∧ g.Branches b := by
        rintro ⟨htest, hbranches⟩
        exact ⟨(hk.isTest_eq hne).symm.trans htest, hk.branches hbranches⟩
      -- where `b` is visited already, its way through `c` is all that can have made the difference
      by_cases hnow : ∃ t, k.Bypassable b t
      · rcases hvisited with hbc | hnone
        · have hbs := (List.mem_cons.mp hbc).resolve_left hne
          exact hback (ih hk.consistent hb (.inl hbs))
        · obtain ⟨t, ht⟩ := hnow
          exact (hk.of_bypassable hg ht).resolve_left fun ⟨t, ht⟩ => hnone t ht
      · exact hback (ih hk.consistent hb (.inr (not_exists.mp hnow)))

end BypassRun

/-- Among the blocks of `g'` control flows as in `g`, the other blocks of which it passes through. -/
structure FlowsAs (g g' : Flowgraph π) : Prop where
  entry_eq : g'.entry = g.entry
  exit_eq : g'.exit = g.exit
  route_iff : ∀ a b p, g'.Live a → g'.Live b →
    (Route g'.view.Step a b p ↔ ∃ q, Route g.view.Step a b q ∧ q.filter (g'.Live ·) = p)
  reaches_iff : ∀ entry b, g.entry = some entry → g'.Live b →
    (g'.view.Reaches entry b ↔ g.view.Reaches entry b)
  dominates_iff : ∀ entry a b, g.entry = some entry → g'.Live a → g'.Live b →
    (Dominates g'.view.Step entry a b ↔ Dominates g.view.Step entry a b)
  postdominates_iff : ∀ exit a b, g.exit = some exit → g'.Live a → g'.Live b →
    ((∀ p, Route g'.view.Step b exit p → a ∈ p) ↔ ∀ p, Route g.view.Step b exit p → a ∈ p)

theorem BypassRun.flowsAs (h : BypassRun g bs n g') (hg : Consistent g) : FlowsAs g g' := by
  have hg' := h.consistent hg
  have hcondenses := h.condenses hg
  have hentry : ∀ r, g.entry = some r → g'.Live r := fun r hr =>
    hg'.entry.live (h.entry_eq.trans hr)
  have hexit : ∀ r, g.exit = some r → g'.Live r := fun r hr =>
    hg'.exit.live (h.exit_eq.trans hr)
  refine ⟨h.entry_eq, h.exit_eq, fun a b p ha hb => ?_, fun r b hr hb => ?_,
    fun r a b hr ha hb => ?_, fun r a b hr ha hb => ?_⟩
  · exact hcondenses a b p (decide_eq_true ha) (decide_eq_true hb)
  · exact hcondenses.reaches_iff (decide_eq_true (hentry r hr)) (decide_eq_true hb)
  · exact hcondenses.dominates_iff (decide_eq_true ha) (decide_eq_true hb)
      (decide_eq_true (hentry r hr))
  · exact hcondenses.dominates_iff (decide_eq_true ha) (decide_eq_true (hexit r hr))
      (decide_eq_true hb)

end Flowgraph

namespace Edit

theorem exists_foldlM_bypass (hg : Consistent g) (hbs : bs.Nodup) (hlive : ∀ b ∈ bs, g.Live b)
    (m : Nat) :
    ∃ n g', (bs.foldlM (fun n b => do
        let gone ← bypass b
        return if gone then n + 1 else n) m).exec g = (.ok (m + n), g') ∧ BypassRun g bs n g' := by
  induction bs generalizing g m with
  | nil => exact ⟨0, g, rfl, .done g⟩
  | cons b bs ih =>
      obtain ⟨hb, hbs⟩ := List.nodup_cons.mp hbs
      obtain ⟨hblive, hlive⟩ := List.forall_mem_cons.mp hlive
      rw [List.foldlM_cons, exec_bind, exec_bind]
      by_cases h : ∃ s, g.Bypassable b s
      · obtain ⟨s, h⟩ := h
        obtain ⟨k, hk, hbypassed⟩ := exists_bypassed hg h
        obtain ⟨n, g', hexec, hrun⟩ := ih hbypassed.consistent hbs
          (fun c hc => hbypassed.live_iff.mpr ⟨hlive c hc, fun e => hb (e ▸ hc)⟩) (m + 1)
        rw [hk]
        refine ⟨n + 1, g', ?_, .take hbypassed hrun⟩
        rw [← Nat.add_assoc, Nat.add_right_comm]
        exact hexec
      · have hkeep := not_exists.mp h
        obtain ⟨n, g', hexec, hrun⟩ := ih hg hbs hlive m
        rw [exec_bypass_of_not_bypassable hg hblive hkeep]
        exact ⟨n, g', hexec, .keep hkeep hrun⟩

theorem exists_bypassAll (hg : Consistent g) :
    ∃ n g', bypassAll.exec g = (.ok n, g') ∧ BypassRun g g.ids n g' := by
  obtain ⟨n, g', hexec, hrun⟩ :=
    exists_foldlM_bypass hg g.nodup_ids (fun b hb => mem_ids.mp hb) 0
  refine ⟨n, g', ?_, hrun⟩
  rw [bypassAll, exec_bind, exec_get]
  rw [Nat.zero_add] at hexec
  exact hexec

theorem bypassed_of_exec (hg : Consistent g) (h : (bypass b).exec g = (.ok true, g')) :
    ∃ s, g.Bypassed b s g' := by
  by_cases hb : g.Live b
  · by_cases hs : ∃ s, g.Bypassable b s
    · obtain ⟨s, hs⟩ := hs
      obtain ⟨k, hk, hbypassed⟩ := exists_bypassed hg hs
      cases hk.symm.trans h
      exact ⟨s, hbypassed⟩
    · rw [exec_bypass_of_not_bypassable hg hb (not_exists.mp hs)] at h
      cases h
  · rw [exec_bypass_of_not_live hb] at h
    cases h

theorem exec_bypassAll_of_none (hg : Consistent g) (hnone : ∀ b s, ¬g.Bypassable b s) :
    bypassAll.exec g = (.ok 0, g) := by
  obtain ⟨n, g', hexec, hrun⟩ := exists_bypassAll hg
  obtain rfl := hrun.eq_zero hnone
  obtain ⟨rfl, -⟩ := hrun.of_zero
  exact hexec

end Edit

namespace Flowgraph

theorem bypass_keeps_flow_after (passes : Passes) (cs : List (Command π)) :
    let g := after passes cs
    (∀ b g', (Edit.bypass b).exec g = (.ok true, g') →
      ∃ s, g.succs b = [s] ∧ (∀ c, g'.Live c ↔ g.Live c ∧ c ≠ b) ∧
        (∀ u v, v ∈ g'.succs u ↔ (v ∈ g.succs u ∧ u ≠ b ∧ v ≠ b) ∨ (u ∈ g.preds b ∧ v = s)) ∧
        (∀ a c p, g'.Live a → g'.Live c →
          (Route g'.view.Step a c p ↔ ∃ q, Route g.view.Step a c q ∧ q.filter (· ≠ b) = p)) ∧
        FlowsAs g g') ∧
    ∃ n g', Edit.bypassAll.exec g = (.ok n, g') ∧ FlowsAs g g' := by
  intro g
  have hg : Consistent g := consistent_after passes cs
  constructor
  · intro b g' hexec
    obtain ⟨s, h⟩ := Edit.bypassed_of_exec hg hexec
    have hrun : BypassRun g [b] 1 g' := .take h (.done g')
    refine ⟨s, h.bypassable.succs_eq, fun c => h.live_iff, fun u v => ?_, fun a c p ha hc => ?_,
      hrun.flowsAs hg⟩
    · rw [hg.mem_preds_iff, ← hg.step_iff]
      exact h.contracts.step_iff u v
    · exact h.contracts.condenses a c p (decide_eq_true (h.live_iff.mp ha).2)
        (decide_eq_true (h.live_iff.mp hc).2)
  · obtain ⟨n, g', hexec, hrun⟩ := Edit.exists_bypassAll hg
    exact ⟨n, g', hexec, hrun.flowsAs hg⟩

/-- One run through the blocks leaves a block that can be bypassed only where two branches or more
of a block that is no test fell together. Where there is no such block, or nothing was bypassed, a
second run finds nothing. -/
theorem bypassAll_leaves_after (passes : Passes) (cs : List (Command π)) :
    let g := after passes cs
    ∃ n g', Edit.bypassAll.exec g = (.ok n, g') ∧ n + g'.ids.length = g.ids.length ∧
      (∀ b g'', (Edit.bypass b).exec g' = (.ok true, g'') →
        g.isTest b = false ∧ 2 ≤ (g.succs b).length ∧ (g'.succs b).length = 1) ∧
      ((n = 0 ∨ ∀ b, g.Idle b → g.isTest b = false → (g.succs b).length < 2) →
        (∀ b, g'.Live b → (Edit.bypass b).exec g' = (.ok false, g')) ∧
          Edit.bypassAll.exec g' = (.ok 0, g')) := by
  intro g
  have hg : Consistent g := consistent_after passes cs
  obtain ⟨n, g', hexec, hrun⟩ := Edit.exists_bypassAll hg
  have hg' := hrun.consistent hg
  have hleft : ∀ b s, g'.Bypassable b s → g.isTest b = false ∧ g.Branches b := fun b s h =>
    hrun.of_bypassable hg h (.inl (mem_ids.mpr (hrun.live_of_live h.live)))
  refine ⟨n, g', hexec, hrun.length_ids, fun b g'' hb => ?_, fun hcase => ?_⟩
  · obtain ⟨s, h⟩ := Edit.bypassed_of_exec hg' hb
    obtain ⟨htest, hbranches⟩ := hleft b s h.bypassable
    refine ⟨htest, hbranches.two_le, ?_⟩
    rw [h.bypassable.succs_eq]
    rfl
  · have hnone : ∀ b s, ¬g'.Bypassable b s := by
      intro b s h
      rcases hcase with rfl | hfew
      · obtain ⟨rfl, hnone⟩ := hrun.of_zero
        exact hnone b (mem_ids.mpr h.live) s h
      · obtain ⟨htest, hbranches⟩ := hleft b s h
        have hidle := (idle_iff_of_core?_eq (hrun.core?_eq h.live)).mp h.idle
        exact absurd hbranches.two_le (Nat.not_le.mpr (hfew b hidle htest))
    exact ⟨fun b hb => Edit.exec_bypass_of_not_bypassable hg' hb (hnone b),
      Edit.exec_bypassAll_of_none hg' hnone⟩

def mergeHistory : List (Command Nat) :=
  [.addSentinels, .addBlock [0], .addBlock [2], .connectTo 2 [1], .connectTo 3 [1]]

theorem second_run_bypasses :
    ∃ g', Edit.bypassAll.exec (after .usual mergeHistory) = (.ok 1, g') ∧
      ((Edit.bypass 2).exec g').1 = .ok true ∧ (Edit.bypassAll.exec g').1 = .ok 1 := by
  refine ⟨(Edit.bypassAll.exec (after .usual mergeHistory)).2, Prod.ext ?_ rfl, ?_, ?_⟩
  · cbv
  · cbv
  · cbv

end Flowgraph

end ControlFlow

import ControlFlow.Proofs.Flowgraph.Branch
import ControlFlow.Proofs.Flowgraph.Core
import ControlFlow.Proofs.Flowgraph.History
import ControlFlow.Proofs.Reached
import Mathlib

namespace ControlFlow

open Flowgraph

variable {π : Type} {b c d u v entry : BlockId} {ds : List BlockId} {g g' k : Flowgraph π}
  {f : Block π → Block π} {x : Block π}

theorem eq_filter_of_sublist {α : Type} {xs ys : List α} {q : α → Bool} (h : xs.Sublist ys)
    (hys : ys.Nodup) (hmem : ∀ a, a ∈ xs ↔ a ∈ ys ∧ q a = true) : xs = ys.filter q := by
  have hsub : xs.Sublist (ys.filter q) := by
    have hall : xs.filter q = xs := List.filter_eq_self.mpr fun a ha => ((hmem a).mp ha).2
    exact hall ▸ h.filter q
  refine hsub.eq_of_length (List.Perm.length_eq ?_)
  rw [List.perm_ext_iff_of_nodup (hys.sublist h) (hys.filter q)]
  exact fun a => (hmem a).trans List.mem_filter.symm

namespace Block

theorem preds_dropPred_sublist (x : Block π) (b : BlockId) :
    (x.dropPred b).preds.toList.Sublist x.preds.toList := by
  rw [dropPred, toList_erase]
  exact List.erase_sublist

theorem succs_dropSucc_sublist (x : Block π) (b : BlockId) :
    (x.dropSucc b).succs.toList.Sublist x.succs.toList := by
  rw [dropSucc, toList_erase]
  exact List.erase_sublist

end Block

namespace Flowgraph

def Thinned (g g' : Flowgraph π) : Prop :=
  ∀ c, (g'.succs c).Sublist (g.succs c) ∧ (g'.preds c).Sublist (g.preds c)

theorem Thinned.refl (g : Flowgraph π) : g.Thinned g :=
  fun _ => ⟨.refl _, .refl _⟩

theorem Thinned.trans (h : g.Thinned k) (h' : k.Thinned g') : g.Thinned g' :=
  fun c => ⟨(h' c).1.trans (h c).1, (h' c).2.trans (h c).2⟩

theorem thinned_update (hsuccs : ∀ x, (f x).succs.toList.Sublist x.succs.toList)
    (hpreds : ∀ x, (f x).preds.toList.Sublist x.preds.toList) : g.Thinned (g.update b f) :=
  fun c => ⟨rel_listOf_update (φ := Block.succs) (R := fun xs ys => ys.Sublist xs) .refl
      (fun x _ => hsuccs x) c,
    rel_listOf_update (φ := Block.preds) (R := fun xs ys => ys.Sublist xs) .refl
      (fun x _ => hpreds x) c⟩

theorem thinned_vacate : g.Thinned (g.vacate b) := by
  intro c
  rw [succs, succs, preds, preds, block?_vacate]
  split
  · exact ⟨List.nil_sublist _, List.nil_sublist _⟩
  · exact ⟨.refl _, .refl _⟩

theorem thinned_remove (x : Block π) : g.Thinned (g.remove b x) := by
  have hdetach : g.Thinned (g.detach b x) := by
    refine List.foldlRecOn _ _ (List.foldlRecOn _ _ thinned_vacate ?_) ?_
    · intro k hk s _
      exact hk.trans (thinned_update (fun y => .refl _) fun y => y.preds_dropPred_sublist b)
    · intro k hk p _
      exact hk.trans (thinned_update (fun y => y.succs_dropSucc_sublist b) fun y => .refl _)
  have hsuccs : (g.remove b x).succs = (g.detach b x).succs := succs_invalidate _
  have hpreds : (g.remove b x).preds = (g.detach b x).preds := preds_invalidate _
  intro c
  rw [hsuccs, hpreds]
  exact hdetach c

theorem size_remove (x : Block π) : (g.remove b x).blocks.size = g.blocks.size := by
  refine (SameRoles.invalidate _).size.trans ?_
  change (g.detach b x).blocks.size = g.blocks.size
  rw [(sameRoles_detach x).size]
  exact Array.size_setIfInBounds ..

theorem flowOf_remove (x : Block π) (hu : u ≠ b) (hv : v ≠ b) :
    (g.remove b x).flowOf u v = g.flowOf u v := by
  change (g.remove b x).edges.flow u v = g.edges.flow u v
  rw [flow_remove hu]
  split
  · exact Function.update_of_ne hv _ _
  · rfl

/-- `g'` is `g` without the blocks `ds` and their edges. -/
structure Removed (g : Flowgraph π) (ds : List BlockId) (g' : Flowgraph π) : Prop where
  consistent : Consistent g'
  size_eq : g'.blocks.size = g.blocks.size
  core?_eq : ∀ c, g'.core? c = if c ∈ ds then none else g.core? c
  entry_eq : (∀ d ∈ ds, g.entry ≠ some d) → g'.entry = g.entry
  exit_eq : (∀ d ∈ ds, g.exit ≠ some d) → g'.exit = g.exit
  holds_iff : ∀ u v, g'.edges.Holds u v ↔ g.edges.Holds u v ∧ u ∉ ds ∧ v ∉ ds
  flow_eq : ∀ u v, u ∉ ds → v ∉ ds → g'.flowOf u v = g.flowOf u v
  branch?_eq : ∀ c, c ∉ ds → (∀ d ∈ ds, d ∉ g.succs c) → g'.branch? c = g.branch? c
  thinned : g.Thinned g'

namespace Removed

theorem nil (hg : Consistent g) : g.Removed [] g where
  consistent := hg
  size_eq := rfl
  core?_eq _ := rfl
  entry_eq _ := rfl
  exit_eq _ := rfl
  holds_iff _ _ := by simp
  flow_eq _ _ _ _ := rfl
  branch?_eq _ _ _ := rfl
  thinned := .refl g

theorem cons (hg : Consistent g) (hx : g.block? d = some x) (h : (g.remove d x).Removed ds g') :
    g.Removed (d :: ds) g' where
  consistent := h.consistent
  size_eq := h.size_eq.trans (size_remove x)
  core?_eq c := by
    rw [h.core?_eq, core?_remove]
    split <;> split <;> simp_all
  entry_eq hentry := by
    obtain ⟨hd, hds⟩ := List.forall_mem_cons.mp hentry
    have hsame : (g.remove d x).entry = g.entry := by rw [entry_remove, if_neg hd]
    exact (h.entry_eq (hsame ▸ hds)).trans hsame
  exit_eq hexit := by
    obtain ⟨hd, hds⟩ := List.forall_mem_cons.mp hexit
    have hsame : (g.remove d x).exit = g.exit := by rw [exit_remove, if_neg hd]
    exact (h.exit_eq (hsame ▸ hds)).trans hsame
  holds_iff u v := by
    rw [h.holds_iff, hg.holds_remove hx, List.mem_cons, List.mem_cons, not_or, not_or, and_assoc,
      and_and_and_comm, ← and_assoc]
  flow_eq u v hu hv := by
    rw [List.mem_cons, not_or] at hu hv
    rw [h.flow_eq u v hu.2 hv.2, flowOf_remove x hu.1 hv.1]
  branch?_eq c hc hkept := by
    rw [List.mem_cons, not_or] at hc
    obtain ⟨hd, hds⟩ := List.forall_mem_cons.mp hkept
    have hthin := (thinned_remove (g := g) (b := d) x c).1
    have hpreds : c ∉ x.preds.toList := by
      intro hcx
      have hpred : c ∈ g.preds d := by simpa [preds, hx] using hcx
      exact hd (hg.mem_succs_iff.mpr (hg.mem_preds_iff.mp hpred))
    rw [h.branch?_eq c hc.2 fun e he hmem => hds e he (hthin.subset hmem), branch?_remove,
      if_neg hc.1, if_neg hpreds]
  thinned := (thinned_remove x).trans h.thinned

variable (h : g.Removed ds g')

include h

theorem live_iff : g'.Live c ↔ g.Live c ∧ c ∉ ds := by
  rw [live_iff_isSome_core?, live_iff_isSome_core?, h.core?_eq]
  split <;> simp_all

theorem isTest_eq (hc : c ∉ ds) : g'.isTest c = g.isTest c := by
  apply isTest_of_core?_eq
  rw [h.core?_eq, if_neg hc]

theorem succs_eq (hg : Consistent g) (hc : c ∉ ds) :
    g'.succs c = (g.succs c).filter (· ∉ ds) := by
  refine eq_filter_of_sublist (h.thinned c).1 (hg.nodup_succs c) fun v => ?_
  rw [h.consistent.mem_succs_iff, h.holds_iff, hg.mem_succs_iff, and_iff_right hc,
    decide_eq_true_eq]

theorem preds_eq (hg : Consistent g) (hc : c ∉ ds) :
    g'.preds c = (g.preds c).filter (· ∉ ds) := by
  refine eq_filter_of_sublist (h.thinned c).2 (hg.nodup_preds c) fun u => ?_
  rw [h.consistent.mem_preds_iff, h.holds_iff, hg.mem_preds_iff, and_iff_left hc,
    decide_eq_true_eq]

theorem length_ids (hds : ds.Nodup) (hlive : ∀ d ∈ ds, g.Live d) :
    ds.length + g'.ids.length = g.ids.length := by
  rw [← List.length_append]
  refine List.Perm.length_eq ?_
  rw [List.perm_ext_iff_of_nodup (hds.append g'.nodup_ids ?_) g.nodup_ids]
  · intro c
    rw [List.mem_append, mem_ids, mem_ids, h.live_iff]
    by_cases hc : c ∈ ds
    · simp [hc, hlive c hc]
    · simp [hc]
  · intro c hc hids
    exact (h.live_iff.mp (mem_ids.mp hids)).2 hc

theorem alikeFrom (hg : Consistent g) (hreach : ∀ b, g.view.Reaches entry b → b ∉ ds) :
    g.view.AlikeFrom g'.view entry where
  bound_eq := h.size_eq
  succs_eq b hb := by
    refine (h.succs_eq hg (hreach b hb)).trans (List.filter_eq_self.mpr fun v hv => ?_)
    exact decide_eq_true (hreach v (hb.tail hv))
  preds_eq b hb q hq := by
    change (g'.preds b).filter q = (g.preds b).filter q
    rw [h.preds_eq hg (hreach b hb), List.filter_filter]
    -- what `q` lets through is reached, so the removals have left it
    refine List.filter_congr fun p _ => ?_
    cases hp : q p with
    | false => rfl
    | true => exact decide_eq_true (hreach p (hq p hp))

end Removed

end Flowgraph

namespace Edit

theorem exists_removed (hg : Consistent g) (hds : ds.Nodup) (hlive : ∀ d ∈ ds, g.Live d) :
    ∃ g', (ds.forM removeBlock).exec g = (.ok (), g') ∧ g.Removed ds g' := by
  induction ds generalizing g with
  | nil => exact ⟨g, rfl, .nil hg⟩
  | cons d ds ih =>
      obtain ⟨hd, hds⟩ := List.nodup_cons.mp hds
      obtain ⟨⟨x, hx⟩, hlive⟩ := List.forall_mem_cons.mp hlive
      have hrest : ∀ c ∈ ds, (g.remove d x).Live c := by
        intro c hc
        have hne : c ≠ d := fun e => hd (e ▸ hc)
        rw [live_iff_isSome_core?, core?_remove, if_neg hne, ← live_iff_isSome_core?]
        exact hlive c hc
      obtain ⟨g', hexec, hremoved⟩ := ih (hg.remove hx) hds hrest
      refine ⟨g', ?_, .cons hg hx hremoved⟩
      exact (exec_bind_of_ok (exec_removeBlock hx)).trans hexec

theorem exists_pruned (hg : Consistent g) (hentry : g.entry = some entry) :
    ∃ ds g', prune.exec g = (.ok ds.length, g') ∧ g.Removed ds g' ∧ ds.Nodup ∧
      (∀ b, b ∈ ds ↔ g.Live b ∧ ¬g.view.Reaches entry b ∧ g.exit ≠ some b) ∧
      g'.entry = g.entry ∧ g'.exit = g.exit := by
  obtain ⟨ds, hds, hnodup, hmem⟩ := hg.exists_doomed hentry
  obtain ⟨g', hexec, hremoved⟩ := exists_removed hg hnodup fun d hd => ((hmem d).mp hd).1
  refine ⟨ds, g', ?_, hremoved, hnodup, hmem, hremoved.entry_eq fun d hd hd' => ?_,
    hremoved.exit_eq fun d hd => ((hmem d).mp hd).2.2⟩
  · rw [prune, exec_bind_of_ok (exec_get g), hentry]
    refine (exec_bind_of_ok ?_).trans (exec_bind_of_ok hexec)
    rw [exec_ofExcept, hds]
  · cases hentry.symm.trans hd'
    exact ((hmem entry).mp hd).2.1 .refl

end Edit

namespace Flowgraph

theorem prune_after (passes : Passes) (cs : List (Command π))
    (hentry : (after passes cs).entry = some entry) :
    let g := after passes cs
    ∃ n g', Edit.prune.exec g = (.ok n, g') ∧
      (∀ b, g'.Live b ↔ g.Live b ∧ (g.view.Reaches entry b ∨ g.exit = some b)) ∧
      n + g'.ids.length = g.ids.length ∧ g'.entry = g.entry ∧ g'.exit = g.exit ∧
      (∀ b, g.view.Reaches entry b → g'.succs b = g.succs b) ∧
      (∀ u v, g'.Live u → g'.Live v → g'.edges.contains u v = g.edges.contains u v ∧
        g'.flowOf u v = g.flowOf u v) ∧
      ∃ N t, g.view.number entry = .ok N ∧ g'.view.number entry = .ok N ∧
        g.view.dominators N = .ok t ∧ g'.view.dominators N = .ok t := by
  intro g
  have hg : Consistent g := consistent_after passes cs
  obtain ⟨ds, g', hexec, hremoved, hnodup, hmem, hentry', hexit'⟩ := Edit.exists_pruned hg hentry
  have hsound := hg.sound (hg.entry.live hentry)
  have halike := hremoved.alikeFrom hg fun b hb hds => ((hmem b).mp hds).2.1 hb
  obtain ⟨N, hN, hfin⟩ := View.number_finished hsound.root_lt hsound.inRange
  obtain ⟨t, ht, -⟩ := View.dominators_spec hsound hfin
  refine ⟨ds.length, g', hexec, fun b => ?_, ?_, hentry', hexit', halike.succs_eq,
    fun u v hu hv => ⟨?_, ?_⟩, N, t, hN, halike.number_eq.trans hN, ht,
    (halike.dominators_eq hsound hfin).trans ht⟩
  · rw [hremoved.live_iff, hmem]
    tauto
  · exact hremoved.length_ids hnodup fun d hd => ((hmem d).mp hd).1
  · rw [hremoved.live_iff] at hu hv
    rw [Bool.eq_iff_iff]
    exact (hremoved.holds_iff u v).trans (and_iff_left ⟨hu.2, hv.2⟩)
  · exact hremoved.flow_eq u v (hremoved.live_iff.mp hu).2 (hremoved.live_iff.mp hv).2

def strandedHistory : List (Command Nat) :=
  [.addSentinels, .addBlock [0], .addBlock [2], .connectTo 3 [2], .addBlock [], .connectTo 4 [2, 3, 1]]

theorem prune_after_strandedHistory :
    (after .usual strandedHistory).entry = some 0 ∧
      let g := after .usual strandedHistory
      ∃ n g', Edit.prune.exec g = (.ok n, g') ∧
        (∀ b, g'.Live b ↔ g.Live b ∧ (g.view.Reaches 0 b ∨ g.exit = some b)) ∧
        n + g'.ids.length = g.ids.length ∧ g'.entry = g.entry ∧ g'.exit = g.exit ∧
        (∀ b, g.view.Reaches 0 b → g'.succs b = g.succs b) ∧
        (∀ u v, g'.Live u → g'.Live v → g'.edges.contains u v = g.edges.contains u v ∧
          g'.flowOf u v = g.flowOf u v) ∧
        ∃ N t, g.view.number 0 = .ok N ∧ g'.view.number 0 = .ok N ∧
          g.view.dominators N = .ok t ∧ g'.view.dominators N = .ok t := by
  have hentry : (after .usual strandedHistory).entry = some 0 := by cbv
  exact ⟨hentry, prune_after .usual strandedHistory hentry⟩

end Flowgraph

end ControlFlow

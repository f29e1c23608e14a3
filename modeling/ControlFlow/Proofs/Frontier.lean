import ControlFlow.Proofs.Agreement

namespace ControlFlow

open Relation

variable {g : View} {root a b p s : BlockId} {t : DomTree}

namespace DomTree.Hangs

variable (h : t.Hangs g root)

include h

theorem isIdom_of_idom (hb : g.Reaches root b) (hs : t.idom? b = some s) :
    IsIdom g.Step root s b := by
  have hne : b ≠ root := by
    rintro rfl
    simp [h.idom_root] at hs
  exact (h.idom_eq_some_iff hb hne).mp hs

theorem above_idom_iff (ht : Levelled t) (hb : g.Reaches root b) :
    Above t.idom? a b ↔ Dominates g.Step root a b := by
  refine above_iff_dominates ht.rank h.idom_root (fun x hx hne => ?_) hb
  obtain ⟨d, hd, hidom⟩ := h.idom_eq x hx hne
  exact ⟨d, hd, reaches_of_dominates hidom.1.2 hx, hidom⟩

variable (hg : g.Sound root)

include hg

theorem pred_iff (hb : g.Reaches root b) :
    (p ∈ g.preds b ∧ t.contains p = true) ↔ g.Reaches root p ∧ g.Step p b := by
  rw [h.contains_iff, and_comm]
  exact and_congr_right fun hp => hg.mirrored p b hp hb

theorem climbable (ht : Levelled t) : Climbable t g := by
  intro b p s hb hp hpt hs
  rw [h.contains_iff] at hb
  obtain ⟨hreach, hstep⟩ := (h.pred_iff hg hb).mp ⟨hp, hpt⟩
  have hidom := h.isIdom_of_idom hb hs
  rw [h.above_idom_iff ht hreach]
  exact hidom.1.2.of_step hstep hidom.1.1

theorem join_of_onFrontier (hab : OnFrontier g.Step root a b) :
    2 ≤ ((g.preds b).filter t.contains).length ∨ b = t.root := by
  obtain ⟨⟨p, hp, hpb, hap⟩, hnot⟩ := hab
  have hb : g.Reaches root b := hp.tail hpb
  rw [h.root_eq]
  by_contra hjoin
  obtain ⟨hlen, hne⟩ := not_or.mp hjoin
  have hmem : ∀ q, q ∈ (g.preds b).filter t.contains ↔ g.Reaches root q ∧ g.Step q b := by
    intro q
    rw [List.mem_filter]
    exact h.pred_iff hg hb
  -- the only predecessor is the immediate dominator, so `a` dominates `b` too
  have honly : ∀ q, ReflTransGen g.Step root q → g.Step q b → q = p := by
    intro q hq hqb
    have hpmem := (hmem p).mpr ⟨hp, hpb⟩
    have hqmem := (hmem q).mpr ⟨hq, hqb⟩
    have hone : ((g.preds b).filter t.contains).length = 1 := by
      have hpos := List.length_pos_of_mem hpmem
      omega
    obtain ⟨x, hx⟩ := List.length_eq_one_iff.mp hone
    rw [hx, List.mem_singleton] at hpmem hqmem
    exact hqmem.trans hpmem.symm
  exact hnot (hap.trans_strictly hb (strictlyDominates_of_only hb hne honly))

theorem ends_iff (ht : Levelled t) : Ends t g a b ↔ OnFrontier g.Step root a b := by
  constructor
  · rintro ⟨hb, -, p, hp, hpt, habove, hstop⟩
    rw [h.contains_iff] at hb
    obtain ⟨hreach, hstep⟩ := (h.pred_iff hg hb).mp ⟨hp, hpt⟩
    refine ⟨⟨p, hreach, hstep, (h.above_idom_iff ht hreach).mp habove⟩, fun hab => ?_⟩
    by_cases hbr : b = root
    · subst hbr
      exact hab.1 (dominates_root_iff.mp hab.2)
    · obtain ⟨s, hs, hidom⟩ := h.idom_eq b hb hbr
      have hrs : g.Reaches root s := reaches_of_dominates hidom.1.2 hb
      exact hstop s hs ((h.above_idom_iff ht hrs).mpr (hidom.2 a hab))
  · intro hab
    have hjoin := h.join_of_onFrontier hg hab
    have hb : g.Reaches root b := hab.reaches
    obtain ⟨⟨p, hp, hpb, hap⟩, hnot⟩ := hab
    obtain ⟨hmem, hpt⟩ := (h.pred_iff hg hb).mpr ⟨hp, hpb⟩
    refine ⟨(h.contains_iff b).mpr hb, hjoin, p, hmem, hpt, (h.above_idom_iff ht hp).mpr hap,
      fun s hs has => hnot ?_⟩
    have hidom := h.isIdom_of_idom hb hs
    have hrs : g.Reaches root s := reaches_of_dominates hidom.1.2 hb
    exact (hidom.dominates_iff hb).mp ((h.above_idom_iff ht hrs).mp has)

theorem frontierOf_spec {idoms semis : Array (Option BlockId)}
    (hbuilt : ofIdoms g root idoms semis = .ok t) (a : BlockId) :
    (t.frontierOf a).Pairwise (· < ·) ∧
      ∀ b, b ∈ t.frontierOf a ↔ OnFrontier g.Step root a b := by
  have ht := ofIdoms_levelled hbuilt
  obtain ⟨hsorted, hmem⟩ := ofIdoms_frontiers hbuilt (h.climbable hg ht) a
  exact ⟨hsorted, fun b => (hmem b).trans (h.ends_iff hg ht)⟩

theorem mem_frontierOf_iff {idoms semis : Array (Option BlockId)}
    (hbuilt : ofIdoms g root idoms semis = .ok t) :
    b ∈ t.frontierOf a ↔ t.contains b = true ∧
      (∃ p ∈ g.preds b, t.contains p = true ∧ Dominates g.Step root a p) ∧
      ¬StrictlyDominates g.Step root a b := by
  rw [(h.frontierOf_spec hg hbuilt a).2 b]
  constructor
  · intro hab
    have hb : g.Reaches root b := hab.reaches
    obtain ⟨⟨p, hp, hpb, hap⟩, hnot⟩ := hab
    obtain ⟨hpred, hpt⟩ := (h.pred_iff hg hb).mpr ⟨hp, hpb⟩
    exact ⟨(h.contains_iff b).mpr hb, ⟨p, hpred, hpt, hap⟩, hnot⟩
  · rintro ⟨hb, ⟨p, hpred, hpt, hap⟩, hnot⟩
    obtain ⟨hp, hpb⟩ := (h.pred_iff hg ((h.contains_iff b).mp hb)).mp ⟨hpred, hpt⟩
    exact ⟨⟨p, hp, hpb, hap⟩, hnot⟩

end DomTree.Hangs

theorem Rooted.frontiers_correct (g : Rooted) (hg : g.toView.Sound g.root) :
    ∃ N t u, g.number = .ok N ∧ g.toView.dominators N = .ok t ∧
      g.toView.fixpointDominators N = .ok u ∧ ∀ v, v = t ∨ v = u →
        (∀ b, v.contains b = true ↔ g.Reaches g.root b) ∧
        ∀ a, v.contains a = true → ∃ F, v.frontier a = .ok F ∧ F.Pairwise (· < ·) ∧
          (∀ b, b ∈ F ↔ v.contains b = true ∧
            (∃ p ∈ g.preds b, v.contains p = true ∧ Dominates g.Step g.root a p) ∧
            ¬StrictlyDominates g.Step g.root a b) ∧
          ∀ p, v.contains p = true → Dominates g.Step g.root a p →
            (g.Step p g.root → g.root ∈ F) ∧ (g.Step p a → a ∈ F) := by
  obtain ⟨N, hnum, hN⟩ := View.number_finished hg.root_lt hg.inRange
  obtain ⟨t, idoms, semis, ht, hhangs, hsweep, hfix⟩ := View.exists_tree hg hN
  refine ⟨N, t, { t with semis := #[] }, hnum, hsweep, hfix, ?_⟩
  have hspec : ∀ v, v = t ∨ v = { t with semis := #[] } →
      v.contains = t.contains ∧ v.frontier = t.frontier := by
    rintro v (rfl | rfl) <;> exact ⟨rfl, rfl⟩
  intro v hv
  obtain ⟨hcontains, hfrontier⟩ := hspec v hv
  rw [hcontains, hfrontier]
  refine ⟨hhangs.contains_iff, fun a ha => ?_⟩
  obtain ⟨hsorted, hmem⟩ := hhangs.frontierOf_spec hg ht a
  have hreach := hhangs.contains_iff
  refine ⟨t.frontierOf a, ?_, hsorted, fun b => hhangs.mem_frontierOf_iff hg ht,
    fun p hp hap => ⟨fun hstep => ?_, fun hstep => ?_⟩⟩
  · rw [DomTree.frontier, hhangs.require_eq ((hreach a).mp ha)]
    rfl
  · rw [hmem]
    exact ⟨⟨p, (hreach p).mp hp, hstep, hap⟩,
      fun h => h.1 (dominates_root_iff.mp h.2)⟩
  · rw [hmem]
    exact ⟨⟨p, (hreach p).mp hp, hstep, hap⟩, fun h => h.1 rfl⟩

theorem Rooted.frontiers_correct_tangle :
    tangle.toView.Sound tangle.root ∧ ∃ N t u, tangle.number = .ok N ∧
      tangle.toView.dominators N = .ok t ∧ tangle.toView.fixpointDominators N = .ok u ∧
      ∀ v, v = t ∨ v = u → (∀ b, v.contains b = true ↔ tangle.Reaches tangle.root b) ∧
        ∀ a, v.contains a = true → ∃ F, v.frontier a = .ok F ∧ F.Pairwise (· < ·) ∧
          (∀ b, b ∈ F ↔ v.contains b = true ∧
            (∃ p ∈ tangle.preds b, v.contains p = true ∧
              Dominates tangle.Step tangle.root a p) ∧
            ¬StrictlyDominates tangle.Step tangle.root a b) ∧
          ∀ p, v.contains p = true → Dominates tangle.Step tangle.root a p →
            (tangle.Step p tangle.root → tangle.root ∈ F) ∧ (tangle.Step p a → a ∈ F) := by
  have hsound : tangle.toView.Sound tangle.root :=
    View.sound_ofEdges (by decide) (by decide)
  exact ⟨hsound, Rooted.frontiers_correct tangle hsound⟩

end ControlFlow

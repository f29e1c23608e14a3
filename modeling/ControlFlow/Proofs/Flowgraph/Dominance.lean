import ControlFlow.Proofs.DomTree.Returned
import ControlFlow.Proofs.Flowgraph.Traces
import Mathlib

namespace ControlFlow

open Relation

variable {π : Type} {g : Flowgraph π} {a b entry exit : BlockId} {t : DomTree}

namespace Flowgraph

theorem Consistent.step_reversed (h : Consistent g) :
    g.view.reversed.Step = fun x y => g.view.Step y x := by
  funext u v
  exact propext (h.mem_preds_iff.trans h.mem_succs_iff.symm)

theorem Consistent.reaches_reversed_iff (h : Consistent g) :
    g.view.reversed.Reaches exit b ↔ g.view.Reaches b exit := by
  rw [View.Reaches, h.step_reversed]
  exact reflTransGen_swap

theorem Consistent.live_of_reaches_live (h : Consistent g) (hexit : g.Live exit)
    (hb : g.view.Reaches b exit) : g.Live b := by
  rcases ReflTransGen.cases_head hb with rfl | ⟨c, hbc, -⟩
  · exact hexit
  · exact (h.ends b c (h.step_iff.mp hbc)).1

theorem Consistent.hangs (h : Consistent g) {N : Numbering} (hentry : g.Live entry)
    (hN : g.view.number entry = .ok N) (ht : g.view.dominators N = .ok t) :
    t.Hangs g.view entry := by
  have hsound := h.sound hentry
  obtain ⟨N', hN', hfin⟩ := View.number_finished hsound.root_lt hsound.inRange
  rw [hN] at hN'
  cases hN'
  obtain ⟨t', ht', hhangs⟩ := View.dominators_spec hsound hfin
  rw [ht] at ht'
  cases ht'
  exact hhangs

theorem Consistent.hangs_reversed (h : Consistent g) (hexit : g.Live exit)
    (ht : g.view.postDominators exit = .ok t) : t.Hangs g.view.reversed exit := by
  have hsound := h.sound_reversed hexit
  obtain ⟨N, hN, hfin⟩ := View.number_finished hsound.root_lt hsound.inRange
  obtain ⟨t', ht', hhangs⟩ := View.dominators_spec hsound hfin
  rw [View.postDominators, hN] at ht
  cases ht.symm.trans ht'
  exact hhangs

theorem results_returned (passes : Passes) (cs : List (Command π)) {r : Results}
    (hr : (after passes cs).results = some r) :
    r.dominators.Returned ∧ ∀ u, r.postDominators = some u → u.Returned := by
  obtain ⟨entry, exit, -, -, hcompute⟩ := ((faithful_after passes cs).recorded r hr).compute
  obtain ⟨-, ht, hpost⟩ := compute_ok hcompute
  refine ⟨⟨_, _, .inl ht⟩, fun u hu => ?_⟩
  split at hpost
  · obtain ⟨u', hu', hpost⟩ := hpost
    cases hu.symm.trans hu'
    exact .of_postDominators hpost
  · cases hu.symm.trans hpost

theorem dominance_after (passes : Passes) (cs : List (Command π))
    (hclean : (after passes cs).isDirty = false) :
    let g := after passes cs
    ∃ entry exit t, g.entry = some entry ∧ g.exit = some exit ∧ g.dominators = .ok t ∧
      (∀ b, t.contains b = true ↔ g.Live b ∧ g.view.Reaches entry b) ∧
      (∀ a b, t.contains a = true → t.contains b = true →
        ∃ q, g.dominates a b = .ok q ∧
          (q = true ↔ ∀ p, Route g.view.Step entry b p → a ∈ p)) ∧
      (g.passes.postDominators = true → ∃ u, g.postDominators? = some u ∧ u.root = exit ∧
        (∀ b, u.contains b = true ↔ g.Live b ∧ g.view.Reaches b exit) ∧
        ∀ a b, u.contains a = true → u.contains b = true →
          ∃ q, u.dominates a b = .ok q ∧
            (q = true ↔ ∀ p, Route g.view.Step b exit p → a ∈ p)) := by
  intro g
  have hcons : Consistent g := consistent_after passes cs
  have hg : Faithful g := faithful_after passes cs
  obtain ⟨r, hr⟩ : ∃ r, g.results = some r := by
    rw [isDirty, Option.isNone_eq_false_iff, Option.isSome_iff_exists] at hclean
    exact hclean
  obtain ⟨entry, exit, hentry, hexit, hcompute⟩ := (hg.recorded r hr).compute
  obtain ⟨hN, ht, hpost⟩ := compute_ok hcompute
  have hlentry := hcons.entry.live hentry
  have hlexit := hcons.exit.live hexit
  have hhangs := hcons.hangs hlentry hN ht
  have hdom : g.dominators = .ok r.dominators := by rw [dominators, treeOr, hr]
  refine ⟨entry, exit, r.dominators, hentry, hexit, hdom, ?_, ?_, ?_⟩
  · intro b
    rw [hhangs.contains_iff]
    exact ⟨fun hb => ⟨hcons.live_of_reaches hlentry hb, hb⟩, And.right⟩
  · intro a b ha hb
    rw [hhangs.contains_iff] at ha hb
    rw [Flowgraph.dominates, hdom]
    exact hhangs.dominates_eq ha hb
  · intro hasked
    rw [if_pos hasked] at hpost
    obtain ⟨u, hu, hpost⟩ := hpost
    have hhangs := hcons.hangs_reversed hlexit hpost
    refine ⟨u, ?_, hhangs.root_eq, ?_, ?_⟩
    · rw [postDominators?, hr, Option.bind_some, hu]
    · intro b
      rw [hhangs.contains_iff, hcons.reaches_reversed_iff]
      exact ⟨fun hb => ⟨hcons.live_of_reaches_live hlexit hb, hb⟩, And.right⟩
    · intro a b ha hb
      rw [hhangs.contains_iff] at ha hb
      obtain ⟨q, hq, hiff⟩ := hhangs.dominates_eq ha hb
      refine ⟨q, hq, hiff.trans ?_⟩
      rw [hcons.step_reversed, dominates_swap_iff]

theorem dominance_after_loopHistory :
    (after .usual loopHistory).isDirty = false ∧
      let g := after .usual loopHistory
      ∃ entry exit t, g.entry = some entry ∧ g.exit = some exit ∧ g.dominators = .ok t ∧
        (∀ b, t.contains b = true ↔ g.Live b ∧ g.view.Reaches entry b) ∧
        (∀ a b, t.contains a = true → t.contains b = true →
          ∃ q, g.dominates a b = .ok q ∧
            (q = true ↔ ∀ p, Route g.view.Step entry b p → a ∈ p)) ∧
        (g.passes.postDominators = true → ∃ u, g.postDominators? = some u ∧ u.root = exit ∧
          (∀ b, u.contains b = true ↔ g.Live b ∧ g.view.Reaches b exit) ∧
          ∀ a b, u.contains a = true → u.contains b = true →
            ∃ q, u.dominates a b = .ok q ∧
              (q = true ↔ ∀ p, Route g.view.Step b exit p → a ∈ p)) := by
  have hclean : (after .usual loopHistory).isDirty = false := by cbv
  exact ⟨hclean, dominance_after .usual loopHistory hclean⟩

end Flowgraph

end ControlFlow

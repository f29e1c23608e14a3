import ControlFlow.Proofs.Unmirrored.Sweep

/-!
What the tree of the sweep tells where predecessors and successors disagree. It goes by the
predecessors alone, and these are refused only if the sweep finds nothing before some block; lists
that agree with the depth-first tree pass unnoticed even if they change what dominates what.
-/

namespace ControlFlow

open Relation

variable {g g' : View} {root a b c w : BlockId} {N : Numbering}

namespace Numbering

inductive Leap (N : Numbering) (g : View) (c : BlockId) : BlockId → Prop
  | edge {w : BlockId} : N.PredStep g c w → Leap N g c w
  | across {u v w : BlockId} :
      Leap N g c u → N.Before w u → Above N.parent? u v → N.PredStep g v w → Leap N g c w

namespace Finished

variable (h : N.Finished g' root) {i j : Fin N.preorder.size}

include h

theorem exists_block_of_contains (hb : N.contains b = true) : ∃ i, N.block i = b := by
  obtain ⟨k, hk⟩ := Numbering.contains_iff.mp hb
  exact exists_block h hk

theorem leap_block_iff : N.Leap g (N.block i) (N.block j) ↔ (N.spanning g).Leap i j := by
  have hcopy : Copy (N.PredStep g) (N.spanning g).Edge N.block := pred_copy h
  constructor
  · intro hleap
    generalize hj : N.block j = b at hleap
    induction hleap generalizing j with
    | edge hstep =>
        subst hj
        exact .edge ((hcopy.step i j).mpr hstep)
    | across _ hwu huv hvw ih =>
        subst hj
        obtain ⟨_, _, -, hu, -⟩ := id hwu
        obtain ⟨k, rfl⟩ := exists_block h hu
        obtain ⟨l, rfl⟩ := exists_block_of_contains h hvw.1
        exact .across (ih rfl) ((before_block_iff h).mp hwu) ((above_iff_block h).mpr huv)
          ((hcopy.step l j).mpr hvw)
  · intro hleap
    induction hleap with
    | edge hstep => exact .edge ((hcopy.step _ _).mp hstep)
    | across _ hwu huv hvw ih =>
        exact .across ih ((before_block_iff h).mpr hwu) ((above_iff_block h).mp huv)
          ((hcopy.step _ _).mp hvw)

theorem forall_not_leap_iff :
    (∀ c, N.Before c (N.block j) → ¬N.Leap g c (N.block j)) ↔
      ∀ i, (N.spanning g).Leap i j → j ≤ i := by
  constructor
  · intro hnone i hleap
    by_contra hlt
    exact hnone (N.block i) ((before_block_iff h).mpr (not_le.mp hlt)) ((leap_block_iff h).mpr hleap)
  · rintro hall c ⟨k, l, hk, hl, hkl⟩ hleap
    obtain ⟨i, rfl⟩ := exists_block h hk
    have hij := (before_block_iff h).mp ⟨k, l, hk, hl, hkl⟩
    exact absurd (hall i ((leap_block_iff h).mp hleap)) (not_le.mpr hij)

end Finished

end Numbering

structure Numbering.Follows (N : Numbering) (g : View) : Prop where
  parent_mem : ∀ b p, N.parent? b = some p → p ∈ g.preds b
  above : ∀ u v, N.PredStep g u v → N.Before u v → Above N.parent? u v

namespace View

theorem dominators_error_iff (hN : N.Finished g' root) (hbound : g.bound = N.bound) :
    (∃ f, g.dominators N = .error f) ↔
      ∃ w, N.contains w = true ∧ w ≠ root ∧ ∀ c, N.Before c w → ¬N.Leap g c w := by
  rcases dominators_cases hN hbound with ⟨i, hi, hleast, herror⟩ | ⟨idom, semi, t, ht, -, hspec⟩
  · refine ⟨fun _ => ⟨N.block i, Numbering.Finished.contains_block hN i, fun e => hi ?_, ?_⟩,
      fun _ => ⟨_, herror⟩⟩
    · exact (Numbering.Finished.block_eq_root_iff hN).mp e
    · exact (Numbering.Finished.forall_not_leap_iff hN).mpr hleast
  · constructor
    · rintro ⟨f, hf⟩
      cases ht.symm.trans hf
    · rintro ⟨w, hw, hne, hnone⟩
      obtain ⟨i, rfl, hi⟩ := Numbering.Finished.exists_block_ne hN (hN.contains_iff.mp hw) hne
      obtain ⟨-, hlt, hleap⟩ := hspec i hi
      exact absurd ((Numbering.Finished.forall_not_leap_iff hN).mp hnone _ hleap) (not_le.mpr hlt)

theorem reaches_of_depthFirst (hN : N.Finished g' root) (hS : (N.spanning g).DepthFirst)
    (i : Fin N.preorder.size) : ReflTransGen (N.PredStep g) root (N.block i) := by
  have hcopy : Copy (N.PredStep g) (N.spanning g).Edge N.block := Numbering.Finished.pred_copy hN
  induction hk : i.val using Nat.strongRecOn generalizing i with
  | ind k ih =>
      by_cases hi : i.val = 0
      · rw [(Numbering.Finished.block_eq_root_iff hN).mpr hi]
      · exact (ih _ (hk ▸ hS.descends i hi) _ rfl).tail
          ((hcopy.step _ _).mp (hS.parent_edge i hi))

theorem exists_dominators_of_follows (hN : N.Finished g' root) (hbound : g.bound = N.bound)
    (hf : N.Follows g) :
    ∃ t, g.dominators N = .ok t ∧ ∀ a b, N.contains a = true → N.contains b = true →
      ∃ q, t.dominates a b = .ok q ∧ (q = true ↔ Dominates (N.PredStep g) root a b) := by
  have hcopy : Copy (N.PredStep g) (N.spanning g).Edge N.block := Numbering.Finished.pred_copy hN
  have hS : (N.spanning g).DepthFirst := by
    refine Numbering.Finished.depthFirst_of_preds hN hf.parent_mem fun i j hij hlt => ?_
    exact hf.above _ _ ((hcopy.step i j).mp hij)
      ((Numbering.Finished.before_block_iff hN).mpr hlt)
  obtain ⟨hpos, idom, semi, t, hspec, ht, hsweep⟩ := exists_sweep_of_depthFirst hN hbound.symm hS
  have hidom := fun i hi => (hspec i hi).1
  have hlt : ∀ i : Fin N.preorder.size, i.val ≠ 0 → idom.get i < i :=
    fun i hi => hS.lt_of_strictlyDominates rfl (hidom i hi).1
  have hcontains := (Numbering.parents_tableOf hN idom).contains_iff hN ht
  refine ⟨t, hsweep, fun a b ha hb => ?_⟩
  obtain ⟨q, hq, hiff⟩ :=
    DomTree.exists_dominates ((hcontains a).mpr ha) ((hcontains b).mpr hb)
  refine ⟨q, hq, ?_⟩
  rw [hiff, above_iff_of_copy hN hcopy (reaches_of_depthFirst hN hS) hidom hlt ht ha hb,
    eq_or_strictlyDominates_iff]

end View

/-- The dominator tree goes by the predecessors. It is refused, with a complaint about a
semidominator, just when the sweep finds nothing before some block; where the lists follow the
numbering, it is accepted and tells dominance along them, whatever the successors say; and where
the lists mirror the successors, that is dominance in the graph. -/
theorem Rooted.dominators_follow_preds (g : Rooted) (hroot : g.root < g.bound)
    (hrange : g.toView.InRange g.root) :
    ∃ N, g.number = .ok N ∧
      ((∃ f, g.dominators = .error f) ↔
        ∃ w, g.Reaches g.root w ∧ w ≠ g.root ∧ ∀ c, N.Before c w → ¬N.Leap g.toView c w) ∧
      (∀ f, g.dominators = .error f →
        ∃ w i, N.pre? w = some i ∧ f = .violation (.semidominatorNotAbove w i i)) ∧
      (N.Follows g.toView → ∃ t, g.dominators = .ok t ∧
        ∀ a b, g.Reaches g.root a → g.Reaches g.root b →
          ∃ q, t.dominates a b = .ok q ∧ (q = true ↔ Dominates (N.PredStep g.toView) g.root a b)) ∧
      ((∀ u v, g.Reaches g.root u → g.Reaches g.root v → (u ∈ g.preds v ↔ g.Step u v)) →
        ∃ t, g.dominators = .ok t ∧ ∀ a b, g.Reaches g.root a → g.Reaches g.root b →
          ∃ q, t.dominates a b = .ok q ∧ (q = true ↔ Dominates g.Step g.root a b)) := by
  obtain ⟨N, hnum, hN⟩ := View.number_finished hroot hrange
  have hbound : g.bound = N.bound := hN.sizes.1.symm
  rw [dominators_eq hnum]
  refine ⟨N, hnum, ?_, fun f hf => ?_, fun hfollows => ?_, fun hmirrored => ?_⟩
  · rw [View.dominators_error_iff hN hbound]
    simp only [hN.contains_iff]
  · rcases View.dominators_cases hN hbound with ⟨i, -, -, herror⟩ | ⟨_, _, _, ht, -⟩
    · cases herror.symm.trans hf
      exact ⟨_, _, Numbering.Finished.pre_block hN i, rfl⟩
    · cases ht.symm.trans hf
  · obtain ⟨t, ht, hdom⟩ := View.exists_dominators_of_follows hN hbound hfollows
    exact ⟨t, ht, fun a b ha hb => hdom a b (hN.contains_iff.mpr ha) (hN.contains_iff.mpr hb)⟩
  · obtain ⟨t, ht, hhangs⟩ := View.dominators_spec ⟨hroot, hrange, hmirrored⟩ hN
    exact ⟨t, ht, fun _ _ => hhangs.dominates_eq⟩

section Skewed

def skewed : Rooted :=
  (View.ofEdges 3 [(0, 1), (1, 2)] [(0, 1), (1, 2), (0, 2)]).rootedAt 0

theorem step_skewed {u v : BlockId} (h : skewed.Step u v) : u = 0 ∧ v = 1 ∨ u = 1 ∧ v = 2 := by
  have hmem := (View.mem_lists.mp h).2
  simpa using hmem

theorem inRange_skewed : skewed.toView.InRange skewed.root :=
  View.inRange_ofEdges (by decide)

theorem reaches_skewed : skewed.Reaches 0 1 ∧ skewed.Reaches 0 2 := by
  have hone : 1 ∈ skewed.succs 0 := by decide
  have htwo : 2 ∈ skewed.succs 1 := by decide
  exact ⟨.single hone, (ReflTransGen.single hone).tail htwo⟩

theorem parent_skewed (hN : N.Finished skewed.toView 0) :
    N.parent? 1 = some 0 ∧ N.parent? 2 = some 1 := by
  have hparent : ∀ b, skewed.Reaches 0 b → b ≠ 0 → ∃ p, N.parent? b = some p := by
    intro b hb hne
    rw [← hN.contains_iff, Numbering.contains_iff] at hb
    obtain ⟨i, hi⟩ := hb
    exact hN.has_parent b i hi hne
  obtain ⟨p, hp⟩ := hparent 1 reaches_skewed.1 (by decide)
  obtain ⟨q, hq⟩ := hparent 2 reaches_skewed.2 (by decide)
  have hp0 := step_skewed (hN.parent_edge 1 p hp)
  have hq1 := step_skewed (hN.parent_edge 2 q hq)
  simp_all

theorem follows_skewed (hN : N.Finished skewed.toView 0) : N.Follows skewed.toView where
  parent_mem b p hp := by
    rcases step_skewed (hN.parent_edge b p hp) with ⟨rfl, rfl⟩ | ⟨rfl, rfl⟩ <;> decide
  above u v huv _ := by
    obtain ⟨hone, htwo⟩ := parent_skewed hN
    have hmem : (v, u) ∈ [(1, 0), (2, 1), (2, 0)] := (View.mem_lists.mp huv.2.2).2
    simp only [List.mem_cons, Prod.mk.injEq, List.not_mem_nil, or_false] at hmem
    rcases hmem with ⟨rfl, rfl⟩ | ⟨rfl, rfl⟩ | ⟨rfl, rfl⟩
    · exact .of_up hone (.refl 0)
    · exact .of_up htwo (.refl 1)
    · exact .of_up htwo (.of_up hone (.refl 0))

theorem Rooted.dominators_follow_preds_skewed :
    skewed.root < skewed.bound ∧ skewed.toView.InRange skewed.root ∧
    ∃ N, skewed.number = .ok N ∧ N.Follows skewed.toView ∧ ∃ t, skewed.dominators = .ok t ∧
      ∀ a b, skewed.Reaches skewed.root a → skewed.Reaches skewed.root b →
        ∃ q, t.dominates a b = .ok q ∧
          (q = true ↔ Dominates (N.PredStep skewed.toView) skewed.root a b) := by
  have hroot : skewed.root < skewed.bound := by decide
  obtain ⟨N, hnum, -, -, hfollows, -⟩ := dominators_follow_preds skewed hroot inRange_skewed
  obtain ⟨N', hnum', hN⟩ := View.number_finished hroot inRange_skewed
  cases hnum.symm.trans hnum'
  exact ⟨hroot, inRange_skewed, N, hnum, follows_skewed hN, hfollows (follows_skewed hN)⟩

theorem Rooted.dominators_skewed :
    skewed.root < skewed.bound ∧ skewed.toView.InRange skewed.root ∧
    skewed.Reaches skewed.root 1 ∧ skewed.Reaches skewed.root 2 ∧
    Dominates skewed.Step skewed.root 1 2 ∧
    ∃ t, skewed.dominators = .ok t ∧ t.dominates 1 2 = .ok false := by
  have hroot : skewed.root < skewed.bound := by decide
  obtain ⟨N, hnum, hN⟩ := View.number_finished hroot inRange_skewed
  have honly : StrictlyDominates skewed.Step skewed.root 1 2 := by
    refine strictlyDominates_of_only reaches_skewed.2 (by decide) fun q _ hq => ?_
    rcases step_skewed hq with ⟨-, h⟩ | ⟨h, -⟩
    · cases h
    · exact h
  obtain ⟨t, ht, hdom⟩ := View.exists_dominators_of_follows hN hN.sizes.1.symm (follows_skewed hN)
  have hcontains : ∀ b, skewed.Reaches 0 b → N.contains b = true := fun b => hN.contains_iff.mpr
  obtain ⟨q, hq, hiff⟩ :=
    hdom 1 2 (hcontains 1 reaches_skewed.1) (hcontains 2 reaches_skewed.2)
  have hstep : N.PredStep skewed.toView 0 2 :=
    ⟨hcontains 0 .refl, hcontains 2 reaches_skewed.2, by decide⟩
  have hnot : ¬Dominates (N.PredStep skewed.toView) skewed.root 1 2 :=
    not_dominates_iff.mpr ⟨by decide, .single ⟨hstep, by decide⟩⟩
  have hfalse : q = false := Bool.eq_false_iff.mpr fun h => hnot (hiff.mp h)
  exact ⟨hroot, inRange_skewed, reaches_skewed.1, reaches_skewed.2, honly.2, t,
    (dominators_eq hnum).trans ht, hfalse ▸ hq⟩

end Skewed

end ControlFlow

import ControlFlow.Proofs.Fixpoint.Table

namespace ControlFlow

open Relation

variable {g g' : View} {root b : BlockId} {N : Numbering} {v : DomTable N.postorder.size}
  {r s : Fin N.postorder.size}

namespace Numbering

theorem postorder_pos (h : N.Finished g root) : 0 < N.postorder.size := by
  rw [postorder_size h]
  exact h.pre.lt_size h.root_first

theorem known_iff_reaches (h : N.Finished g root) (hr : r.val = 0)
    (hv : DomTable.Stable (N.rpreds g') r v) :
    v.Known s ↔ ReflTransGen (N.PredStep g') root (N.rblock s) := by
  have hcopy : Copy (N.PredStep g') (DomTable.Edge (N.rpreds g')) N.rblock :=
    Finished.pred_rcopy h
  rw [hv.known_iff, ← (Finished.rblock_eq_root_iff h).mpr hr]
  constructor
  · exact ReflTransGen.lift N.rblock (fun x y hxy => (hcopy.step x y).mp hxy) _ _
  · intro hpath
    obtain ⟨x, hx, hpath⟩ := hcopy.lift_path (P := fun _ => True)
      (ReflTransGen.mono (fun _ _ hxy => ⟨hxy, trivial⟩) _ _ hpath)
    cases hcopy.injective _ _ hx
    exact ReflTransGen.mono (fun _ _ hxy => hxy.1) _ _ hpath

end Numbering

namespace View

theorem fixpointDominators_cases (hN : N.Finished g' root) (hbound : g.bound = N.bound)
    (hr : r.val = 0) (hsolve : DomTable.solve (N.rpreds g) = .ok v)
    (hv : DomTable.Stable (N.rpreds g) r v) :
    (∃ b, N.contains b = true ∧ ¬ReflTransGen (N.PredStep g) N.root b ∧
      g.fixpointDominators N = .error (.violation (.noProcessedPredecessor b))) ∨
    (∀ b, N.contains b = true → ReflTransGen (N.PredStep g) N.root b) ∧
      ∃ t, g.fixpointDominators N = .ok t ∧ t.root = N.root ∧
        ∀ b, t.contains b = true ↔ N.contains b = true := by
  have hfits := Numbering.requireFits_of_bound hN hbound.symm
  have hknown : ∀ s, v.Known s ↔ ReflTransGen (N.PredStep g) N.root (N.rblock s) := fun s =>
    hN.root_eq ▸ Numbering.known_iff_reaches hN hr hv
  by_cases hall : ∀ s : Fin N.postorder.size, s.val ≠ 0 → v.Known s
  · obtain ⟨l, hl⟩ := hv.listed
    have hparents := Numbering.parents_rtableOf hN hall
    obtain ⟨t, ht⟩ := hparents.exists_ofIdoms hN g #[] _ (Numbering.rtableOf_rank hN hl)
    refine .inr ⟨fun b hb => ?_, t, ?_, ?_, hparents.contains_iff hN ht⟩
    · obtain ⟨s, rfl⟩ := Numbering.Finished.exists_rblock hN (hN.contains_iff.mp hb)
      rw [← hknown]
      by_cases hs : s.val = 0
      · exact (Fin.ext (hr.trans hs.symm) : r = s) ▸ ⟨r, hv.root_eq⟩
      · exact hall s hs
    · rw [fixpointDominators_eq_ofIdoms hfits hsolve hall, hN.root_eq, ht]
    · rw [(DomTree.ofIdoms_grown ht).2.1, hN.root_eq]
  · obtain ⟨s, hs⟩ := not_forall.mp hall
    obtain ⟨hs0, hs⟩ := Classical.not_imp.mp hs
    obtain ⟨q, hq, herror⟩ := exists_fixpointDominators_error hfits hsolve hs0 hs
    exact .inl ⟨N.rblock q, Numbering.Finished.contains_rblock hN q,
      fun hreach => hq ((hknown q).mpr hreach), herror⟩

theorem fixpointDominators_outcome (hnum : g'.number root = .ok N)
    (hne : N.isEmpty = false) (hbound : g.bound = N.bound) :
    (∀ t p c, DomTable.Calls (N.rpreds g) t p c → ∃ d, t.meet p c = .ok d) ∧
    (∃ t, DomTable.settle (N.rpreds g) (2 * N.size + 1) (.start N.postorder.size) = .ok t ∧
      DomTable.solve (N.rpreds g) = .ok t ∧ DomTable.round (N.rpreds g) t = .ok t) ∧
    ((∃ e, g.fixpointDominators N = .error (.violation e)) ↔
      ∃ b, N.contains b = true ∧ ¬ReflTransGen (N.PredStep g) N.root b) ∧
    (∀ f, g.fixpointDominators N = .error f → ∃ b, f = .violation (.noProcessedPredecessor b) ∧
      N.contains b = true ∧ ¬ReflTransGen (N.PredStep g) N.root b) ∧
    ((∀ b, N.contains b = true → ReflTransGen (N.PredStep g) N.root b) →
      ∃ t, g.fixpointDominators N = .ok t ∧ t.root = N.root ∧
        ∀ b, t.contains b = true ↔ N.contains b = true) := by
  have hN := finished_of_number hnum hne
  have hzero : (⟨0, Numbering.postorder_pos hN⟩ : Fin N.postorder.size).val = 0 := rfl
  obtain ⟨v, hsettle, hsolve, hround, hv⟩ := DomTable.exists_stable (N.rpreds g) hzero
  have hsettle : DomTable.settle (N.rpreds g) (2 * N.size + 1) (.start N.postorder.size) =
      .ok v := by
    rw [Numbering.size, ← Numbering.postorder_size hN]
    exact hsettle
  refine ⟨fun _ _ _ h => h.exists_meet, ⟨v, hsettle, hsolve, hround⟩, ?_⟩
  rcases fixpointDominators_cases hN hbound hzero hsolve hv with
    ⟨b, hb, hreach, herror⟩ | ⟨hall, t, ht, hrest⟩
  · refine ⟨⟨fun _ => ⟨b, hb, hreach⟩, fun _ => ⟨_, herror⟩⟩, fun f hf => ?_, fun hall => ?_⟩
    · cases herror.symm.trans hf
      exact ⟨b, rfl, hb, hreach⟩
    · exact absurd (hall b hb) hreach
  · refine ⟨⟨?_, ?_⟩, fun f hf => ?_, fun _ => ⟨t, ht, hrest⟩⟩
    · rintro ⟨e, he⟩
      cases ht.symm.trans he
    · rintro ⟨b, hb, hreach⟩
      exact absurd (hall b hb) hreach
    · cases ht.symm.trans hf

def contrary : View :=
  .ofEdges 4 [(0, 1), (1, 2), (2, 3)] [(0, 3), (3, 2), (2, 1)]

theorem fixpointDominators_outcome_contrary :
    ∃ N, contrary.number 0 = .ok N ∧ N.isEmpty = false ∧ contrary.bound = N.bound ∧
    (∀ t p c, DomTable.Calls (N.rpreds contrary) t p c → ∃ d, t.meet p c = .ok d) ∧
    (∃ t, DomTable.settle (N.rpreds contrary) (2 * N.size + 1) (.start N.postorder.size) = .ok t ∧
      DomTable.solve (N.rpreds contrary) = .ok t ∧
      DomTable.round (N.rpreds contrary) t = .ok t) ∧
    ((∃ e, contrary.fixpointDominators N = .error (.violation e)) ↔
      ∃ b, N.contains b = true ∧ ¬ReflTransGen (N.PredStep contrary) N.root b) ∧
    (∀ f, contrary.fixpointDominators N = .error f →
      ∃ b, f = .violation (.noProcessedPredecessor b) ∧
        N.contains b = true ∧ ¬ReflTransGen (N.PredStep contrary) N.root b) ∧
    ((∀ b, N.contains b = true → ReflTransGen (N.PredStep contrary) N.root b) →
      ∃ t, contrary.fixpointDominators N = .ok t ∧ t.root = N.root ∧
        ∀ b, t.contains b = true ↔ N.contains b = true) := by
  obtain ⟨N, hnum, hN⟩ : ∃ N, contrary.number 0 = .ok N ∧ N.Finished contrary 0 :=
    number_finished (by decide) (inRange_ofEdges (by decide))
  have hne := Numbering.isEmpty_eq_false hN
  have hbound : contrary.bound = N.bound := hN.sizes.1.symm
  exact ⟨N, hnum, hne, hbound, fixpointDominators_outcome hnum hne hbound⟩

end View

end ControlFlow

import ControlFlow.Proofs.DomTree.Returned
import ControlFlow.Proofs.Semidominator.Run
import ControlFlow.Proofs.Semidominators
import ControlFlow.Proofs.Unmirrored.Fixpoint

namespace ControlFlow

open Relation

variable {g g' : View} {root : BlockId} {N : Numbering}

namespace View

theorem dominators_cases (hN : N.Finished g' root) (hbound : g.bound = N.bound) :
    (∃ i : Fin N.preorder.size, i.val ≠ 0 ∧ (∀ c, (N.spanning g).Leap c i → i ≤ c) ∧
      g.dominators N = .error (.violation (.semidominatorNotAbove (N.block i) i i))) ∨
    ∃ idom semi t, g.dominators N = .ok t ∧
      DomTree.ofIdoms g root (N.tableOf idom) (N.tableOf semi) = .ok t ∧
      ∀ i : Fin N.preorder.size, i.val ≠ 0 →
        idom.get i < i ∧ semi.get i < i ∧ (N.spanning g).Leap (semi.get i) i := by
  have hfits := Numbering.requireFits_of_bound hN hbound.symm
  have hpos : 0 < N.preorder.size := hN.pre.lt_size hN.root_first
  have hS : (N.spanning g).Descends := Numbering.Finished.spanning_descends hN
  rcases Spanning.solve_outcome hS hpos with
    ⟨i, hi, hleast, hsolve⟩ | ⟨idom, semi, hsolve, hspec⟩
  · refine .inl ⟨i, hi, hleast, ?_⟩
    rw [dominators, hfits, dif_pos hpos, hsolve]
    rfl
  · obtain ⟨t, ht⟩ := (Numbering.parents_tableOf hN idom).exists_ofIdoms hN g (N.tableOf semi)
      (fun b => (N.pre? b).getD 0) (Numbering.tableOf_rank hN fun i hi => (hspec i hi).1)
    refine .inr ⟨idom, semi, t, ?_, ht, hspec⟩
    rw [dominators_eq_ofIdoms hfits hsolve, hN.root_eq, ht]

theorem before_of_tableOf (hN : N.Finished g' root)
    {idom : Vector (Fin N.preorder.size) N.preorder.size}
    (hlt : ∀ i : Fin N.preorder.size, i.val ≠ 0 → idom.get i < i) (b d : BlockId)
    (hd : (N.tableOf idom)[b]?.join = some d) : N.Before d b := by
  obtain ⟨i, rfl, hi, rfl⟩ := (Numbering.getElem?_tableOf hN idom).mp hd
  exact (Numbering.Finished.before_block_iff hN).mpr (hlt i hi)

theorem dominators_outcome (hnum : g'.number root = .ok N) (hne : N.isEmpty = false)
    (hbound : g.bound = N.bound) :
    ((∃ b i, N.pre? b = some i ∧ b ≠ N.root ∧
        g.dominators N = .error (.violation (.semidominatorNotAbove b i i))) ∨
      ∃ t, g.dominators N = .ok t ∧ t.root = N.root ∧
        (∀ b, t.contains b = true ↔ N.contains b = true) ∧
        (∀ b, N.contains b = true → b ≠ N.root → ∃ d, t.idom? b = some d) ∧
        (∀ b d, t.idom? b = some d → N.Before d b) ∧
        ∀ a, ∀ b ∈ t.frontierOf a, t.contains b = true) ∧
    (∀ b i, N.pre? b = some i → i < N.size ∧ b < g.bound) ∧
    ∀ r k F v, r.val = 0 → Sweep.Evaluates (N.spanning g) r k F v →
      ∀ x a, F.up.get x = some a → a < x := by
  have hN := finished_of_number hnum hne
  refine ⟨?_, fun b i hb => ⟨hN.pre.lt_size hb, ?_⟩, fun r k F v hr h x a hx => ?_⟩
  · rcases dominators_cases hN hbound with ⟨i, hi, -, herror⟩ | ⟨idom, semi, t, ht, hbuilt, hspec⟩
    · refine .inl ⟨_, _, Numbering.Finished.pre_block hN i, fun e => hi ?_, herror⟩
      exact (Numbering.Finished.block_eq_root_iff hN).mp (e.trans hN.root_eq)
    · have hparents := Numbering.parents_tableOf hN idom
      obtain ⟨-, hroot, hidoms, -⟩ := DomTree.ofIdoms_grown hbuilt
      refine .inr ⟨t, ht, hroot.trans hN.root_eq.symm, hparents.contains_iff hN hbuilt, ?_, ?_, ?_⟩
      · intro b hb hne
        rw [DomTree.idom?, hidoms]
        exact (hparents.entry_iff b).mpr ⟨hb, hN.root_eq ▸ hne⟩
      · intro b d hd
        rw [DomTree.idom?, hidoms] at hd
        exact before_of_tableOf hN (fun i hi => (hspec i hi).1) b d hd
      · exact fun a b hb => (DomTree.ofIdoms_frontiers_within hbuilt a).2 b hb
  · rw [hbound]
    exact Numbering.lt_bound_of_pre hb
  · exact h.up_lt (Numbering.Finished.spanning_descends hN) hr hx

theorem dominators_outcome_contrary :
    ∃ N, contrary.number 0 = .ok N ∧ N.isEmpty = false ∧ contrary.bound = N.bound ∧
    ((∃ b i, N.pre? b = some i ∧ b ≠ N.root ∧
        contrary.dominators N = .error (.violation (.semidominatorNotAbove b i i))) ∨
      ∃ t, contrary.dominators N = .ok t ∧ t.root = N.root ∧
        (∀ b, t.contains b = true ↔ N.contains b = true) ∧
        (∀ b, N.contains b = true → b ≠ N.root → ∃ d, t.idom? b = some d) ∧
        (∀ b d, t.idom? b = some d → N.Before d b) ∧
        ∀ a, ∀ b ∈ t.frontierOf a, t.contains b = true) ∧
    (∀ b i, N.pre? b = some i → i < N.size ∧ b < contrary.bound) ∧
    ∀ r k F v, r.val = 0 → Sweep.Evaluates (N.spanning contrary) r k F v →
      ∀ x a, F.up.get x = some a → a < x := by
  obtain ⟨N, hnum, hN⟩ : ∃ N, contrary.number 0 = .ok N ∧ N.Finished contrary 0 :=
    number_finished (by decide) (inRange_ofEdges (by decide))
  have hne := Numbering.isEmpty_eq_false hN
  have hbound : contrary.bound = N.bound := hN.sizes.1.symm
  exact ⟨N, hnum, hne, hbound, dominators_outcome hnum hne hbound⟩

end View

end ControlFlow

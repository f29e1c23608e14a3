import ControlFlow.Proofs.Dominators

namespace ControlFlow

open Relation

section Path

variable {α : Type} {R : α → α → Prop} {P : α → Prop} {a b c : α} {p : List α}

theorem Route.head_eq (h : Route R a b (c :: p)) : a = c := by
  cases h <;> rfl

theorem exists_inner_route_iff :
    (∃ p, Route R a b (a :: (p ++ [b])) ∧ ∀ x ∈ p, P x) ↔
      ∃ y, ReflTransGen (fun u v => R u v ∧ P v) a y ∧ R y b := by
  constructor
  · rintro ⟨p, hp, hall⟩
    induction p generalizing a with
    | nil =>
        cases hp with
        | step hac hcb =>
            cases hcb.head_eq
            exact ⟨a, .refl, hac⟩
    | cons x p ih =>
        obtain ⟨hx, hall⟩ := List.forall_mem_cons.mp hall
        cases hp with
        | step hac hcb =>
            cases hcb.head_eq
            obtain ⟨y, hy, hyb⟩ := ih hcb hall
            exact ⟨y, hy.head ⟨hac, hx⟩, hyb⟩
  · rintro ⟨y, hy, hyb⟩
    have hroute : ∃ p, Route R a y (a :: p) ∧ ∀ x ∈ p, P x := by
      clear hyb
      induction hy with
      | refl => exact ⟨[], .here a, nofun⟩
      | @tail y z _ hyz ih =>
          obtain ⟨p, hp, hall⟩ := ih
          refine ⟨p ++ [z], hp.append_step hyz.1, ?_⟩
          exact List.forall_mem_append.mpr ⟨hall, List.forall_mem_singleton.mpr hyz.2⟩
    obtain ⟨p, hp, hall⟩ := hroute
    exact ⟨p, hp.append_step hyb, hall⟩

end Path

variable {g : View} {root s v w : BlockId} {N : Numbering}

namespace Numbering

def Before (N : Numbering) (u v : BlockId) : Prop :=
  ∃ i j, N.pre? u = some i ∧ N.pre? v = some j ∧ i < j

/-- A path of at least one step leads from `v` to `w`, and the blocks on it between the two are
entered after `w`. -/
def Detour (N : Numbering) (g : View) (v w : BlockId) : Prop :=
  ∃ p, Route g.Step v w (v :: (p ++ [w])) ∧ ∀ x ∈ p, N.Before w x

def IsSemidominator (N : Numbering) (g : View) (s w : BlockId) : Prop :=
  ∃ i, N.pre? s = some i ∧ IsLeast {j | ∃ v, N.pre? v = some j ∧ N.Detour g v w} i

namespace Finished

variable (h : N.Finished g root) {i j : Fin N.preorder.size}

include h

theorem before_block_iff : N.Before (N.block i) (N.block j) ↔ i < j := by
  constructor
  · rintro ⟨k, l, hk, hl, hkl⟩
    rw [pre_block h] at hk hl
    cases hk
    cases hl
    exact hkl
  · exact fun hij => ⟨i, j, pre_block h i, pre_block h j, hij⟩

variable (hg : g.Sound root)

include hg

theorem detour_block_iff :
    N.Detour g (N.block i) (N.block j) ↔ (N.spanning g).Detour i j := by
  have hcopy := copy h hg
  rw [Detour, exists_inner_route_iff, Spanning.Detour]
  constructor
  · rintro ⟨x, hx, hxj⟩
    obtain ⟨k, rfl, hk⟩ := hcopy.lift_path hx
    refine ⟨k, ReflTransGen.mono (fun u v huv => ?_) _ _ hk, (hcopy.step k j).mpr hxj⟩
    exact ⟨huv.1, (before_block_iff h).mp huv.2⟩
  · rintro ⟨k, hk, hkj⟩
    refine ⟨N.block k, ReflTransGen.lift N.block (fun u v huv => ?_) _ _ hk,
      (hcopy.step k j).mp hkj⟩
    exact ⟨(hcopy.step u v).mp huv.1, (before_block_iff h).mpr huv.2⟩

theorem isSemidominator_block_iff :
    N.IsSemidominator g (N.block i) (N.block j) ↔ (N.spanning g).IsSemidominator i j := by
  constructor
  · rintro ⟨k, hk, ⟨v, hv, hdetour⟩, hleast⟩
    rw [pre_block h] at hk
    cases hk
    have hvi : v = N.block i := h.pre.inj hv (pre_block h i)
    refine ⟨(detour_block_iff h hg).mp (hvi ▸ hdetour), fun c hc => ?_⟩
    exact hleast ⟨N.block c, pre_block h c, (detour_block_iff h hg).mpr hc⟩
  · rintro ⟨hdetour, hleast⟩
    refine ⟨i, pre_block h i, ⟨N.block i, pre_block h i, (detour_block_iff h hg).mpr hdetour⟩, ?_⟩
    rintro k ⟨v, hv, hdetour⟩
    obtain ⟨c, rfl⟩ := exists_block h hv
    rw [pre_block h] at hv
    cases hv
    exact hleast ((detour_block_iff h hg).mp hdetour)

theorem getElem?_tableOf_semi {semi : Vector (Fin N.preorder.size) N.preorder.size}
    (hsemi : ∀ i : Fin N.preorder.size, i.val ≠ 0 →
      (N.spanning g).IsSemidominator (semi.get i) i) :
    (N.tableOf semi)[w]?.join = some s ↔
      g.Reaches root w ∧ w ≠ root ∧ N.IsSemidominator g s w := by
  rw [getElem?_tableOf h]
  constructor
  · rintro ⟨i, rfl, hi, rfl⟩
    exact ⟨reaches_block h i, fun e => hi ((block_eq_root_iff h).mp e),
      (isSemidominator_block_iff h hg).mpr (hsemi i hi)⟩
  · rintro ⟨hw, hne, hs⟩
    obtain ⟨i, rfl, hi⟩ := exists_block_ne h hw hne
    obtain ⟨c, rfl⟩ : ∃ c, N.block c = s := by
      obtain ⟨j, hj, -⟩ := hs
      exact exists_block h hj
    have hc := (isSemidominator_block_iff h hg).mp hs
    exact ⟨i, rfl, hi, congrArg N.block ((hsemi i hi).unique hc)⟩

end Finished

end Numbering

theorem Spanning.DepthFirst.semidominator_between {n : Nat} {S : Spanning n} {r d i k : Fin n}
    (hS : S.DepthFirst) (hr : r.val = 0) (hi : i.val ≠ 0) (hk : S.IsSemidominator k i)
    (hd : IsIdom S.Edge r d i) : Above S.up k i ∧ k ≠ i ∧ Above S.up d k := by
  have hlt : k < i := lt_of_le_of_lt (hk.2 (hS.parent_detour hi)) (hS.descends i hi)
  exact ⟨Spanning.DepthFirst.Detour.above hS hk.1 hlt, hlt.ne,
    hS.above_of_dominates hr (hS.dominates_of_detour hr hd.1 hk.1)⟩

theorem Rooted.semidominators_exact (g : Rooted) (hg : g.toView.Sound g.root) :
    ∃ N t, g.number = .ok N ∧ g.dominators = .ok t ∧
      (∀ w s, t.semi? w = some s ↔
        g.Reaches g.root w ∧ w ≠ g.root ∧ N.IsSemidominator g.toView s w) ∧
      ∀ w, g.Reaches g.root w → w ≠ g.root →
        ∃ s d, t.semi? w = some s ∧ t.idom w = .ok (some d) ∧
          Above N.parent? s w ∧ s ≠ w ∧ Above N.parent? d s := by
  obtain ⟨N, hnum, hN⟩ := View.number_finished hg.root_lt hg.inRange
  obtain ⟨hpos, idom, semi, t, hspec, ht, hsweep⟩ := View.exists_sweep hg hN
  have hhangs := hangs_of_ofIdoms hg hN (fun i hi => (hspec i hi).1) ht
  obtain ⟨-, -, hidoms, hsemis⟩ := DomTree.ofIdoms_grown ht
  have hsemi : ∀ w s, t.semi? w = some s ↔
      g.Reaches g.root w ∧ w ≠ g.root ∧ N.IsSemidominator g.toView s w := by
    intro w s
    rw [DomTree.semi?, hsemis]
    exact Numbering.Finished.getElem?_tableOf_semi hN hg fun i hi => (hspec i hi).2
  refine ⟨N, t, hnum, (dominators_eq hnum).trans hsweep, hsemi, fun w hw hne => ?_⟩
  obtain ⟨i, rfl, hi⟩ := Numbering.Finished.exists_block_ne hN hw hne
  have hS := Numbering.Finished.spanning_depthFirst hN hg
  obtain ⟨hsi, hne', hds⟩ := hS.semidominator_between rfl hi (hspec i hi).2 (hspec i hi).1
  refine ⟨N.block (semi.get i), N.block (idom.get i), ?_, ?_,
    (Numbering.Finished.above_iff_block hN).mp hsi,
    fun e => hne' (Numbering.Finished.block_injective hN e),
    (Numbering.Finished.above_iff_block hN).mp hds⟩
  · rw [DomTree.semi?, hsemis]
    exact (Numbering.getElem?_tableOf hN semi).mpr ⟨i, rfl, hi, rfl⟩
  · rw [DomTree.idom, hhangs.require_eq hw, DomTree.idom?, hidoms,
      (Numbering.getElem?_tableOf hN idom).mpr ⟨i, rfl, hi, rfl⟩]
    rfl

theorem Rooted.semidominators_exact_tangle :
    tangle.toView.Sound tangle.root ∧ ∃ N t, tangle.number = .ok N ∧ tangle.dominators = .ok t ∧
      (∀ w s, t.semi? w = some s ↔
        tangle.Reaches tangle.root w ∧ w ≠ tangle.root ∧ N.IsSemidominator tangle.toView s w) ∧
      ∀ w, tangle.Reaches tangle.root w → w ≠ tangle.root →
        ∃ s d, t.semi? w = some s ∧ t.idom w = .ok (some d) ∧
          Above N.parent? s w ∧ s ≠ w ∧ Above N.parent? d s := by
  have hsound : tangle.toView.Sound tangle.root :=
    View.sound_ofEdges (by decide) (by decide)
  exact ⟨hsound, Rooted.semidominators_exact tangle hsound⟩

end ControlFlow

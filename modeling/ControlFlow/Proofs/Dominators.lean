import ControlFlow.Proofs.DomTree.OfIdoms
import ControlFlow.Proofs.Dominance

namespace ControlFlow

open Relation

variable {g g' : View} {root a b d e : BlockId} {N : Numbering} {t : DomTree}

namespace DomTree

theorem require_eq_ok_iff : t.require b = .ok () ↔ t.contains b = true := by
  rw [require]
  split <;> simp_all

theorem idom_eq (hb : t.contains b = true) : t.idom b = .ok (t.idom? b) := by
  rw [idom, require_eq_ok_iff.mpr hb]
  rfl

theorem children_eq (hb : t.contains b = true) : t.children b = .ok (t.kidsOf b) := by
  rw [children, require_eq_ok_iff.mpr hb]
  rfl

theorem exists_dominates (ha : t.contains a = true) (hb : t.contains b = true) :
    ∃ q, t.dominates a b = .ok q ∧ (q = true ↔ a = b ∨ t.above a b = true) := by
  rw [dominates]
  by_cases hab : a = b
  · rw [if_pos hab, require_eq_ok_iff.mpr ha]
    exact ⟨true, rfl, by simp [hab]⟩
  · rw [if_neg hab, strictlyDominates, require_eq_ok_iff.mpr ha, require_eq_ok_iff.mpr hb]
    exact ⟨t.above a b, rfl, by simp [hab]⟩

/-- `t` holds the blocks of `g` reached from `root`, each under its immediate dominator. -/
structure Hangs (t : DomTree) (g : View) (root : BlockId) : Prop where
  root_eq : t.root = root
  contains_iff : ∀ b, t.contains b = true ↔ g.Reaches root b
  idom_root : t.idom? root = none
  idom_eq : ∀ b, g.Reaches root b → b ≠ root → ∃ d, t.idom? b = some d ∧ IsIdom g.Step root d b
  above_iff : ∀ a b, g.Reaches root a → g.Reaches root b →
    (t.above a b = true ↔ StrictlyDominates g.Step root a b)

namespace Hangs

variable (h : t.Hangs g root)

include h

theorem require_eq (hb : g.Reaches root b) : t.require b = .ok () :=
  require_eq_ok_iff.mpr ((h.contains_iff b).mpr hb)

theorem idom_eq_some_iff (hb : g.Reaches root b) (hne : b ≠ root) :
    t.idom? b = some d ↔ IsIdom g.Step root d b := by
  obtain ⟨c, hc, hidom⟩ := h.idom_eq b hb hne
  rw [hc]
  refine ⟨fun e => Option.some.inj e ▸ hidom, fun hd => ?_⟩
  exact congrArg some (hidom.unique hb hd)

theorem dominates_eq (ha : g.Reaches root a) (hb : g.Reaches root b) :
    ∃ q, t.dominates a b = .ok q ∧ (q = true ↔ Dominates g.Step root a b) := by
  obtain ⟨q, hq, hiff⟩ := exists_dominates ((h.contains_iff a).mpr ha) ((h.contains_iff b).mpr hb)
  refine ⟨q, hq, ?_⟩
  rw [hiff, h.above_iff a b ha hb, eq_or_strictlyDominates_iff]

theorem idom_root_eq : t.idom root = .ok none := by
  rw [idom, h.require_eq .refl, ← h.idom_root]
  rfl

theorem exists_idom (hb : g.Reaches root b) (hne : b ≠ root) :
    ∃ d, t.idom b = .ok (some d) ∧ ∀ e, IsIdom g.Step root e b ↔ e = d := by
  obtain ⟨d, hd, -⟩ := h.idom_eq b hb hne
  refine ⟨d, ?_, fun e => ?_⟩
  · rw [idom, h.require_eq hb, ← hd]
    rfl
  · rw [← h.idom_eq_some_iff hb hne, hd, Option.some.injEq, eq_comm]

end Hangs

end DomTree

namespace Numbering

theorem isEmpty_eq_false (h : N.Finished g root) : N.isEmpty = false := by
  have hpos := h.pre.lt_size h.root_first
  rw [isEmpty, Array.isEmpty_eq_false_iff]
  exact Array.size_pos_iff.mp hpos

theorem requireFits_of_bound (h : N.Finished g root) (hbound : N.bound = g'.bound) :
    N.requireFits g' = .ok () := by
  rw [requireFits, isEmpty_eq_false h, if_neg Bool.false_ne_true, if_pos hbound]

theorem requireFits_eq (h : N.Finished g root) : N.requireFits g = .ok () :=
  requireFits_of_bound h h.sizes.1

theorem getElem?_tableOf (h : N.Finished g root)
    (v : Vector (Fin N.preorder.size) N.preorder.size) :
    (N.tableOf v)[b]?.join = some d ↔
      ∃ i, N.block i = b ∧ i.val ≠ 0 ∧ N.block (v.get i) = d := by
  have hlt : ∀ i : Fin N.preorder.size, N.block i = b → b < N.bound := by
    rintro i rfl
    exact lt_bound_of_pre (Finished.pre_block h i)
  rw [tableOf, Option.join_eq_some_iff, Array.getElem?_map]
  by_cases hb : b < N.bound
  · rw [Array.getElem?_range, if_pos hb, Option.map_some, Option.some.injEq,
      Option.bind_eq_some_iff]
    refine exists_congr fun i => ?_
    rw [rank?_eq_some_iff h]
    refine and_congr_right fun _ => ?_
    split <;> simp_all
  · rw [Array.getElem?_range, if_neg hb, Option.map_none]
    simp only [reduceCtorEq, false_iff, not_exists, not_and]
    exact fun i hi => absurd (hlt i hi) hb

structure Parents (N : Numbering) (root : BlockId) (idoms : Array (Option BlockId)) : Prop where
  size_eq : idoms.size = N.bound
  entry_iff : ∀ b : BlockId, (∃ p, idoms[b]?.join = some p) ↔ N.contains b = true ∧ b ≠ root
  closed : ∀ b p : BlockId, idoms[b]?.join = some p → N.contains p = true

namespace Parents

variable {idoms semis : Array (Option BlockId)} (h : N.Parents root idoms) (hN : N.Finished g root)

include h hN

theorem mem_members_iff : b ∈ DomTree.members root idoms ↔ N.contains b = true := by
  rw [DomTree.mem_members, h.entry_iff]
  constructor
  · rintro (rfl | hb)
    · exact hN.contains_iff.mpr .refl
    · exact hb.1
  · exact fun hb => or_iff_not_imp_left.mpr fun hne => ⟨hb, hne⟩

theorem exists_ofIdoms (g' : View) (semis : Array (Option BlockId)) (rank : BlockId → Nat)
    (hrank : ∀ b p : BlockId, idoms[b]?.join = some p → rank p < rank b) :
    ∃ t, DomTree.ofIdoms g' root idoms semis = .ok t := by
  refine DomTree.exists_ofIdoms g' semis rank ?_ ?_ hrank fun b p hp => ?_
  · rw [h.size_eq]
    exact lt_bound_of_pre hN.root_first
  · rw [Option.eq_none_iff_forall_ne_some]
    exact fun p hp => ((h.entry_iff root).mp ⟨p, hp⟩).2 rfl
  · exact (h.mem_members_iff hN).mpr (h.closed b p hp)

theorem contains_iff (ht : DomTree.ofIdoms g' root idoms semis = .ok t) (b : BlockId) :
    t.contains b = true ↔ N.contains b = true := by
  obtain ⟨hgrown, hroot, hidoms, -⟩ := DomTree.ofIdoms_grown ht
  rw [hgrown.contains_iff, hroot, DomTree.idom?, hidoms, ← h.mem_members_iff hN,
    DomTree.mem_members]

end Parents

theorem parents_tableOf (h : N.Finished g root)
    (v : Vector (Fin N.preorder.size) N.preorder.size) : N.Parents root (N.tableOf v) where
  size_eq := by rw [tableOf, Array.size_map, Array.size_range]
  entry_iff b := by
    constructor
    · rintro ⟨p, hp⟩
      obtain ⟨i, rfl, hi, -⟩ := (getElem?_tableOf h v).mp hp
      exact ⟨Finished.contains_block h i, fun e => hi ((Finished.block_eq_root_iff h).mp e)⟩
    · rintro ⟨hb, hne⟩
      obtain ⟨i, rfl, hi⟩ := Finished.exists_block_ne h (h.contains_iff.mp hb) hne
      exact ⟨_, (getElem?_tableOf h v).mpr ⟨i, rfl, hi, rfl⟩⟩
  closed b p hp := by
    obtain ⟨i, -, -, rfl⟩ := (getElem?_tableOf h v).mp hp
    exact Finished.contains_block h _

theorem tableOf_rank (h : N.Finished g root) {v : Vector (Fin N.preorder.size) N.preorder.size}
    (hlt : ∀ i : Fin N.preorder.size, i.val ≠ 0 → v.get i < i) (b p : BlockId)
    (hp : (N.tableOf v)[b]?.join = some p) : (N.pre? p).getD 0 < (N.pre? b).getD 0 := by
  obtain ⟨i, rfl, hi, rfl⟩ := (getElem?_tableOf h v).mp hp
  rw [Finished.pre_block h, Finished.pre_block h]
  exact hlt i hi

end Numbering

section Table

section Copied

variable {R : BlockId → BlockId → Prop} {hpos : 0 < N.preorder.size}
  {idom : Vector (Fin N.preorder.size) N.preorder.size} (hN : N.Finished g' root)
  (hcopy : Copy R (N.spanning g).Edge N.block) (hreach : ∀ i, ReflTransGen R root (N.block i))
  (hidom : ∀ i : Fin N.preorder.size, i.val ≠ 0 →
    IsIdom (N.spanning g).Edge ⟨0, hpos⟩ (idom.get i) i)

include hN hcopy hreach hidom

theorem exists_tableOf_of_copy (hb : N.contains b = true) (hne : b ≠ root) :
    ∃ d, (N.tableOf idom)[b]?.join = some d ∧ N.contains d = true ∧ IsIdom R root d b := by
  obtain ⟨i, rfl, hi⟩ := Numbering.Finished.exists_block_ne hN (hN.contains_iff.mp hb) hne
  have hzero : N.block ⟨0, hpos⟩ = root := (Numbering.Finished.block_eq_root_iff hN).mpr rfl
  have hreach : ReflTransGen R (N.block ⟨0, hpos⟩) (N.block i) := hzero ▸ hreach i
  exact ⟨_, (Numbering.getElem?_tableOf hN idom).mpr ⟨i, rfl, hi, rfl⟩,
    Numbering.Finished.contains_block hN _, hzero ▸ hcopy.isIdom hreach (hidom i hi)⟩

theorem above_iff_of_copy (hlt : ∀ i : Fin N.preorder.size, i.val ≠ 0 → idom.get i < i)
    {h : View} {semis : Array (Option BlockId)}
    (ht : DomTree.ofIdoms h root (N.tableOf idom) semis = .ok t)
    (ha : N.contains a = true) (hb : N.contains b = true) :
    t.above a b = true ↔ StrictlyDominates R root a b := by
  obtain ⟨hgrown, hroot, hidoms, -⟩ := DomTree.ofIdoms_grown ht
  have hcontains := (Numbering.parents_tableOf hN idom).contains_iff hN ht
  have hget : ∀ b, t.idom? b = (N.tableOf idom)[b]?.join := fun b => by
    rw [DomTree.idom?, hidoms]
  rw [hgrown.above_iff a b ((hcontains a).mpr ha) ((hcontains b).mpr hb), StrictlyDominates]
  refine and_congr_right fun _ => ?_
  have hrank : ∀ x y, t.idom? x = some y → (N.pre? y).getD 0 < (N.pre? x).getD 0 :=
    fun x y hxy => Numbering.tableOf_rank hN hlt x y ((hget x).symm.trans hxy)
  refine above_iff_dominates hrank (hroot ▸ hgrown.idom_root)
    (fun x (hx : N.contains x = true) hne => ?_) hb
  obtain ⟨d, hd, hrd, hx⟩ := exists_tableOf_of_copy hN hcopy hreach hidom hx hne
  exact ⟨d, (hget x).trans hd, hrd, hx⟩

end Copied

variable {hpos : 0 < N.preorder.size} {idom : Vector (Fin N.preorder.size) N.preorder.size}
  (hg : g.Sound root) (hN : N.Finished g root)
  (hidom : ∀ i : Fin N.preorder.size, i.val ≠ 0 →
    IsIdom (N.spanning g).Edge ⟨0, hpos⟩ (idom.get i) i)

include hg hN hidom

theorem idom_lt (i : Fin N.preorder.size) (hi : i.val ≠ 0) : idom.get i < i :=
  (Numbering.Finished.spanning_depthFirst hN hg).lt_of_strictlyDominates rfl (hidom i hi).1

theorem exists_tableOf (hb : g.Reaches root b) (hne : b ≠ root) :
    ∃ d, (N.tableOf idom)[b]?.join = some d ∧ g.Reaches root d ∧ IsIdom g.Step root d b := by
  obtain ⟨d, hd, hrd, hb⟩ := exists_tableOf_of_copy hN (Numbering.Finished.copy hN hg)
    (Numbering.Finished.reaches_block hN) hidom (hN.contains_iff.mpr hb) hne
  exact ⟨d, hd, hN.contains_iff.mp hrd, hb⟩

theorem exists_ofIdoms_tableOf (semis : Array (Option BlockId)) :
    ∃ t, DomTree.ofIdoms g root (N.tableOf idom) semis = .ok t :=
  (Numbering.parents_tableOf hN idom).exists_ofIdoms hN g semis (fun b => (N.pre? b).getD 0)
    (Numbering.tableOf_rank hN (idom_lt hg hN hidom))

theorem hangs_of_ofIdoms {semis : Array (Option BlockId)}
    (ht : DomTree.ofIdoms g root (N.tableOf idom) semis = .ok t) : t.Hangs g root := by
  obtain ⟨hgrown, hroot, hidoms, -⟩ := DomTree.ofIdoms_grown ht
  refine ⟨hroot, fun b => ?_, hroot ▸ hgrown.idom_root, fun b hb hne => ?_, fun a b ha hb => ?_⟩
  · exact ((Numbering.parents_tableOf hN idom).contains_iff hN ht b).trans hN.contains_iff
  · obtain ⟨d, hd, -, hb⟩ := exists_tableOf hg hN hidom hb hne
    exact ⟨d, by rw [DomTree.idom?, hidoms, hd], hb⟩
  · exact above_iff_of_copy hN (Numbering.Finished.copy hN hg)
      (Numbering.Finished.reaches_block hN) hidom (idom_lt hg hN hidom) ht
      (hN.contains_iff.mpr ha) (hN.contains_iff.mpr hb)

end Table

theorem Rooted.dominators_eq {g : Rooted} (hnum : g.number = .ok N) :
    g.dominators = g.toView.dominators N := by
  rw [dominators, hnum]
  rfl

theorem View.dominators_eq_ofIdoms {hpos : 0 < N.preorder.size}
    {idom semi : Vector (Fin N.preorder.size) N.preorder.size} (hfits : N.requireFits g = .ok ())
    (hsolve : (N.spanning g).solve hpos = .ok (idom, semi)) :
    g.dominators N = DomTree.ofIdoms g N.root (N.tableOf idom) (N.tableOf semi) := by
  rw [dominators, hfits, dif_pos hpos, hsolve]
  rfl

theorem View.exists_sweep_of_depthFirst (hN : N.Finished g' root) (hbound : N.bound = g.bound)
    (hS : (N.spanning g).DepthFirst) :
    ∃ (hpos : 0 < N.preorder.size) (idom semi : Vector (Fin N.preorder.size) N.preorder.size)
      (t : DomTree),
      (∀ i : Fin N.preorder.size, i.val ≠ 0 →
        IsIdom (N.spanning g).Edge ⟨0, hpos⟩ (idom.get i) i ∧
          (N.spanning g).IsSemidominator (semi.get i) i) ∧
      DomTree.ofIdoms g root (N.tableOf idom) (N.tableOf semi) = .ok t ∧
      g.dominators N = .ok t := by
  have hpos : 0 < N.preorder.size := hN.pre.lt_size hN.root_first
  obtain ⟨idom, semi, hsolve, hspec⟩ := Spanning.solve_spec hS hpos
  obtain ⟨t, ht⟩ := (Numbering.parents_tableOf hN idom).exists_ofIdoms hN g (N.tableOf semi)
    (fun b => (N.pre? b).getD 0) (Numbering.tableOf_rank hN fun i hi =>
      hS.lt_of_strictlyDominates rfl (hspec i hi).1.1)
  refine ⟨hpos, idom, semi, t, hspec, ht, ?_⟩
  rwa [dominators_eq_ofIdoms (Numbering.requireFits_of_bound hN hbound) hsolve, hN.root_eq]

theorem View.exists_sweep (hg : g.Sound root) (hN : N.Finished g root) :
    ∃ (hpos : 0 < N.preorder.size) (idom semi : Vector (Fin N.preorder.size) N.preorder.size)
      (t : DomTree),
      (∀ i : Fin N.preorder.size, i.val ≠ 0 →
        IsIdom (N.spanning g).Edge ⟨0, hpos⟩ (idom.get i) i ∧
          (N.spanning g).IsSemidominator (semi.get i) i) ∧
      DomTree.ofIdoms g root (N.tableOf idom) (N.tableOf semi) = .ok t ∧
      g.dominators N = .ok t :=
  exists_sweep_of_depthFirst hN hN.sizes.1 (Numbering.Finished.spanning_depthFirst hN hg)

theorem View.dominators_spec (hg : g.Sound root) (hN : N.Finished g root) :
    ∃ t, g.dominators N = .ok t ∧ t.Hangs g root := by
  obtain ⟨_, _, _, t, hspec, ht, hsweep⟩ := View.exists_sweep hg hN
  exact ⟨t, hsweep, hangs_of_ofIdoms hg hN (fun i hi => (hspec i hi).1) ht⟩

theorem Rooted.dominators_correct (g : Rooted) (hg : g.toView.Sound g.root) :
    ∃ t, g.dominators = .ok t ∧ (∀ b, t.contains b = true ↔ g.Reaches g.root b) ∧
      (∀ a b, g.Reaches g.root a → g.Reaches g.root b →
        ∃ q, t.dominates a b = .ok q ∧ (q = true ↔ Dominates g.Step g.root a b)) ∧
      t.idom g.root = .ok none ∧
      ∀ b, g.Reaches g.root b → b ≠ g.root →
        ∃ d, t.idom b = .ok (some d) ∧ ∀ e, IsIdom g.Step g.root e b ↔ e = d := by
  obtain ⟨N, hnum, hN⟩ := View.number_finished hg.root_lt hg.inRange
  obtain ⟨t, ht, hhangs⟩ := View.dominators_spec hg hN
  refine ⟨t, ?_, hhangs.contains_iff, fun a b => hhangs.dominates_eq, hhangs.idom_root_eq,
    fun b => hhangs.exists_idom⟩
  rw [dominators, number, hnum]
  exact ht

/-- The two loops between `1` and `2` have no common header. There are parallel edges, a self-loop,
an edge into the root and one from a block that is not reached. -/
def tangle : Rooted :=
  let edges := [(0, 1), (0, 2), (1, 2), (2, 1), (1, 1), (1, 3), (1, 3), (3, 0), (4, 3)]
  (View.ofEdges 5 edges edges).rootedAt 0

theorem Rooted.dominators_correct_tangle :
    tangle.toView.Sound tangle.root ∧ ∃ t, tangle.dominators = .ok t ∧
      (∀ b, t.contains b = true ↔ tangle.Reaches tangle.root b) ∧
      (∀ a b, tangle.Reaches tangle.root a → tangle.Reaches tangle.root b →
        ∃ q, t.dominates a b = .ok q ∧ (q = true ↔ Dominates tangle.Step tangle.root a b)) ∧
      t.idom tangle.root = .ok none ∧
      ∀ b, tangle.Reaches tangle.root b → b ≠ tangle.root →
        ∃ d, t.idom b = .ok (some d) ∧ ∀ e, IsIdom tangle.Step tangle.root e b ↔ e = d := by
  have hsound : tangle.toView.Sound tangle.root :=
    View.sound_ofEdges (by decide) (by decide)
  exact ⟨hsound, Rooted.dominators_correct tangle hsound⟩

end ControlFlow

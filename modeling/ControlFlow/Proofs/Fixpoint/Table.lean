import ControlFlow.Proofs.Dominators
import ControlFlow.Proofs.Numbering.Reverse

namespace ControlFlow

variable {g g' : View} {root b d : BlockId} {N : Numbering}

namespace Numbering

def rtableOf (N : Numbering) (v : DomTable N.postorder.size) : Array (Option BlockId) :=
  (Array.range N.bound).map fun b =>
    (N.rrank? b).bind fun r => if r.val = 0 then none else (v.get r).map N.rblock

theorem getElem?_rtableOf (h : N.Finished g root) (v : DomTable N.postorder.size) :
    (N.rtableOf v)[b]?.join = some d ↔
      ∃ r, N.rblock r = b ∧ r.val ≠ 0 ∧ ∃ s, v.get r = some s ∧ N.rblock s = d := by
  have hlt : ∀ r : Fin N.postorder.size, N.rblock r = b → b < N.bound := by
    rintro r rfl
    obtain ⟨i, hi⟩ := h.closed _ _ (Finished.post?_rblock h r)
    exact lt_bound_of_pre hi
  rw [rtableOf, Option.join_eq_some_iff, Array.getElem?_map]
  by_cases hb : b < N.bound
  · rw [Array.getElem?_range, if_pos hb, Option.map_some, Option.some.injEq,
      Option.bind_eq_some_iff]
    refine exists_congr fun r => ?_
    rw [Finished.rrank?_eq_some_iff h]
    refine and_congr_right fun _ => ?_
    split
    · simp_all
    · simp_all [Option.map_eq_some_iff]
  · rw [Array.getElem?_range, if_neg hb, Option.map_none]
    simp only [reduceCtorEq, false_iff, not_exists, not_and]
    exact fun r hr => absurd (hlt r hr) hb

theorem parents_rtableOf (h : N.Finished g root) {v : DomTable N.postorder.size}
    (hv : ∀ r : Fin N.postorder.size, r.val ≠ 0 → v.Known r) : N.Parents root (N.rtableOf v) where
  size_eq := by rw [rtableOf, Array.size_map, Array.size_range]
  entry_iff b := by
    constructor
    · rintro ⟨p, hp⟩
      obtain ⟨r, rfl, hr, -⟩ := (getElem?_rtableOf h v).mp hp
      exact ⟨Finished.contains_rblock h r, fun e => hr ((Finished.rblock_eq_root_iff h).mp e)⟩
    · rintro ⟨hb, hne⟩
      obtain ⟨r, rfl⟩ := Finished.exists_rblock h (h.contains_iff.mp hb)
      have hr : r.val ≠ 0 := fun e => hne ((Finished.rblock_eq_root_iff h).mpr e)
      obtain ⟨s, hs⟩ := hv r hr
      exact ⟨_, (getElem?_rtableOf h v).mpr ⟨r, rfl, hr, s, hs, rfl⟩⟩
  closed b p hp := by
    obtain ⟨r, -, -, s, -, rfl⟩ := (getElem?_rtableOf h v).mp hp
    exact Finished.contains_rblock h s

theorem rtableOf_rank (h : N.Finished g root) {v : DomTable N.postorder.size}
    {l : List (Fin N.postorder.size)} (hl : DomTable.Listed (N.rpreds g') v l) (b p : BlockId)
    (hp : (N.rtableOf v)[b]?.join = some p) :
    ((N.rrank? p).map l.idxOf).getD 0 < ((N.rrank? b).map l.idxOf).getD 0 := by
  obtain ⟨r, rfl, hr, s, hs, rfl⟩ := (getElem?_rtableOf h v).mp hp
  have hlt := hl.up r s (DomTable.up?_eq_some_iff.mpr ⟨hr, hs⟩)
  rwa [(Finished.rrank?_eq_some_iff h).mpr rfl, (Finished.rrank?_eq_some_iff h).mpr rfl]

end Numbering

namespace View

variable {v : DomTable N.postorder.size} (hfits : N.requireFits g = .ok ())
  (hsolve : DomTable.solve (N.rpreds g) = .ok v)

include hfits hsolve

theorem fixpointDominators_eq_ofIdoms (hv : ∀ r : Fin N.postorder.size, r.val ≠ 0 → v.Known r) :
    g.fixpointDominators N = DomTree.ofIdoms g N.root (N.rtableOf v) #[] := by
  have hfind : (((List.finRange N.postorder.size).drop 1).find? fun r => (v.get r).isNone) =
      none := by
    rw [List.find?_eq_none]
    intro r hr
    rw [mem_drop_finRange] at hr
    obtain ⟨d, hd⟩ := hv r (Nat.one_le_iff_ne_zero.mp hr)
    simp [hd]
  rw [fixpointDominators, hfits, hsolve]
  simp only [bind, Except.bind, hfind]
  rfl

theorem exists_fixpointDominators_error {r : Fin N.postorder.size} (hr : r.val ≠ 0)
    (hv : ¬v.Known r) :
    ∃ r, ¬v.Known r ∧
      g.fixpointDominators N = .error (.violation (.noProcessedPredecessor (N.rblock r))) := by
  have hmem : r ∈ (List.finRange N.postorder.size).drop 1 :=
    mem_drop_finRange.mpr (Nat.one_le_iff_ne_zero.mpr hr)
  have hnone : ∀ s, (v.get s).isNone = true ↔ ¬v.Known s := by
    intro s
    rw [DomTable.Known, ← Option.ne_none_iff_exists', not_not, Option.isNone_iff_eq_none]
  cases hfind : ((List.finRange N.postorder.size).drop 1).find? fun s => (v.get s).isNone with
  | none => exact absurd ((hnone r).mpr hv) (List.find?_eq_none.mp hfind r hmem)
  | some s =>
      refine ⟨s, (hnone s).mp ((List.find?_eq_some_iff_append.mp hfind).1), ?_⟩
      rw [fixpointDominators, hfits, hsolve]
      simp only [bind, Except.bind, hfind]
      rfl

end View

end ControlFlow

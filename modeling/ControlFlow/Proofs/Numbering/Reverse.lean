import ControlFlow.Proofs.Fixpoint
import ControlFlow.Proofs.Numbering.Spanning

namespace ControlFlow

open Relation

namespace Numbering

variable {g g' : View} {root b : BlockId} {N : Numbering}

theorem postorder_size (h : N.Finished g root) : N.postorder.size = N.preorder.size := by
  have hmem : ∀ b, b ∈ N.postorder.toList ↔ b ∈ N.preorder.toList := by
    intro b
    rw [Array.mem_toList_iff, Array.mem_toList_iff, Array.mem_iff_getElem?, Array.mem_iff_getElem?]
    constructor
    · rintro ⟨k, hk⟩
      obtain ⟨i, hi⟩ := h.closed b k ((h.post b k).mpr hk)
      exact ⟨i, (h.pre b i).mp hi⟩
    · rintro ⟨i, hi⟩
      obtain ⟨k, hk⟩ := h.exists_post ((h.pre b i).mpr hi)
      exact ⟨k, (h.post b k).mp hk⟩
  have hperm := (List.perm_ext_iff_of_nodup h.post.nodup h.pre.nodup).mpr hmem
  simpa using hperm.length_eq

namespace Finished

variable (h : N.Finished g root) {r s : Fin N.postorder.size}

include h

theorem post?_rblock (r : Fin N.postorder.size) : N.post? (N.rblock r) = some r.rev.val :=
  (h.post _ _).mpr (Array.getElem?_eq_getElem r.rev.isLt)

theorem rrank?_eq_some_iff : N.rrank? b = some r ↔ N.rblock r = b := by
  have hsize := postorder_size h
  have hr := r.isLt
  rw [rrank?, rpost?, Option.bind_eq_some_iff]
  constructor
  · rintro ⟨i, hi, hir⟩
    obtain ⟨k, hk, rfl⟩ := Option.map_eq_some_iff.mp hi
    have hlt := h.post.lt_size hk
    rw [size, ← hsize] at hir
    rw [dif_pos (by omega), Option.some.injEq] at hir
    refine h.post.inj (post?_rblock h _) ?_
    rw [hk, Fin.val_rev, ← hir]
    congr 1
    simp only
    omega
  · rintro rfl
    rw [post?_rblock h, Option.map_some]
    refine ⟨_, rfl, ?_⟩
    have heq : N.size - 1 - r.rev.val = r.val := by
      rw [size, ← hsize, Fin.val_rev]
      omega
    simp only [heq, hr, dif_pos]

theorem rblock_injective (hrs : N.rblock r = N.rblock s) : r = s := by
  have hr := (rrank?_eq_some_iff h).mpr hrs
  rw [(rrank?_eq_some_iff h).mpr rfl] at hr
  exact (Option.some.inj hr).symm

theorem reaches_rblock (r : Fin N.postorder.size) : g.Reaches root (N.rblock r) := by
  obtain ⟨i, hi⟩ := h.closed _ _ (post?_rblock h r)
  exact h.reaches hi

theorem exists_rblock_of_post {k : Nat} (hk : N.post? b = some k) :
    ∃ r, N.rblock r = b ∧ r.val = N.postorder.size - 1 - k := by
  have hlt := h.post.lt_size hk
  refine ⟨Fin.rev ⟨k, hlt⟩, ?_, by rw [Fin.val_rev]; simp only; omega⟩
  refine h.post.inj (post?_rblock h _) ?_
  rw [Fin.rev_rev]
  exact hk

theorem exists_rblock (hb : g.Reaches root b) : ∃ r, N.rblock r = b := by
  rw [← h.contains_iff, Numbering.contains_iff] at hb
  obtain ⟨i, hi⟩ := hb
  obtain ⟨k, hk⟩ := h.exists_post hi
  obtain ⟨r, hr, -⟩ := exists_rblock_of_post h hk
  exact ⟨r, hr⟩

theorem exists_parent_rblock (hr : N.rblock r ≠ root) :
    ∃ s, g.Step (N.rblock s) (N.rblock r) ∧ s < r := by
  obtain ⟨i, hi⟩ := h.closed _ _ (post?_rblock h r)
  obtain ⟨p, hp⟩ := h.has_parent _ i hi hr
  obtain ⟨x, _, hx, _, _⟩ := h.parent_pre _ p hp
  obtain ⟨k, hk⟩ := h.exists_post hx
  obtain ⟨l, hl, hlk⟩ := h.parent_post _ p k hp hk
  obtain ⟨s, rfl, hs⟩ := exists_rblock_of_post h hk
  refine ⟨s, h.parent_edge _ _ hp, ?_⟩
  rw [post?_rblock h] at hl
  have hlr : r.rev.val = l := Option.some.inj hl
  rw [Fin.val_rev] at hlr
  have hlt := h.post.lt_size hk
  rw [Fin.lt_def]
  omega

theorem rblock_eq_root_iff : N.rblock r = root ↔ r.val = 0 := by
  have hzero : ∀ s : Fin N.postorder.size, s.val = 0 → N.rblock s = root := by
    intro s hs
    by_contra hne
    obtain ⟨p, -, hlt⟩ := exists_parent_rblock h hne
    rw [Fin.lt_def] at hlt
    omega
  refine ⟨fun hr => ?_, hzero r⟩
  have heq : r = ⟨0, r.pos⟩ := rblock_injective h (hr.trans (hzero ⟨0, r.pos⟩ rfl).symm)
  rw [heq]

theorem redge_iff_mem :
    DomTable.Edge (N.rpreds g') r s ↔ N.rblock r ∈ g'.preds (N.rblock s) := by
  rw [DomTable.Edge, rpreds, vector_get_ofFn, List.mem_filterMap]
  constructor
  · rintro ⟨b, hb, hr⟩
    rw [(rrank?_eq_some_iff h).mp hr]
    exact hb
  · intro hb
    exact ⟨_, hb, (rrank?_eq_some_iff h).mpr rfl⟩

theorem contains_rblock (r : Fin N.postorder.size) : N.contains (N.rblock r) = true :=
  h.contains_iff.mpr (reaches_rblock h r)

theorem pred_rcopy : Copy (N.PredStep g') (DomTable.Edge (N.rpreds g')) N.rblock where
  injective _ _ := rblock_injective h
  step r s := by
    rw [redge_iff_mem h, PredStep, and_iff_right (contains_rblock h r),
      and_iff_right (contains_rblock h s)]
  closed _ _ hb := exists_rblock h (h.contains_iff.mp hb.2.1)

theorem redge_iff (hg : g.Sound root) :
    DomTable.Edge (N.rpreds g) r s ↔ g.Step (N.rblock r) (N.rblock s) := by
  rw [redge_iff_mem h, hg.mirrored _ _ (reaches_rblock h r) (reaches_rblock h s)]

theorem rcopy (hg : g.Sound root) : Copy g.Step (DomTable.Edge (N.rpreds g)) N.rblock where
  injective _ _ := rblock_injective h
  step _ _ := redge_iff h hg
  closed r _ hb := exists_rblock h ((reaches_rblock h r).tail hb)

theorem ordered_rpreds (hg : g.Sound root) : DomTable.Ordered (N.rpreds g) := by
  intro r hr
  obtain ⟨s, hstep, hlt⟩ := exists_parent_rblock h fun e => hr ((rblock_eq_root_iff h).mp e)
  exact ⟨s, (redge_iff h hg).mpr hstep, hlt⟩

end Finished

end Numbering

end ControlFlow

import ControlFlow.Proofs.DomTree.Returned
import ControlFlow.Proofs.Traversal

namespace ControlFlow.DomTree

open Relation

variable {g : View} {root a b p : BlockId} {idoms semis : Array (Option BlockId)} {t : DomTree}
  {N : Numbering} {i j : Nat}

structure Threaded (t : DomTree) : Prop extends Grown t, Levelled t where
  depth_root : t.depthOf t.root = 0
  kids_sorted : ∀ p, (t.kidsOf p).Pairwise (· < ·)
  mem_kids : ∀ p b, b ∈ t.kidsOf p ↔ t.idom? b = some p
  preorder_nodup : t.preorder.toList.Nodup
  position : ∀ b i, t.preorder[i]? = some b ↔ ∃ j, t.span? b = some (i, j)
  visits : (asView t.idoms t.kids).Visits ∅ [t.root] t.preorder.toList

section Built

theorem childTable_sorted (p : BlockId) :
    ((childTable idoms)[p]?.getD []).Pairwise (· < ·) := by
  rw [childTable_eq_lists]
  by_cases hp : p < idoms.size
  · rw [View.getElem?_lists _ hp, Option.getD_some, List.pairwise_map]
    refine List.Pairwise.filter _ (List.pairwise_filterMap.mpr ?_)
    refine List.pairwise_lt_range.imp fun {b c} hbc x hx y hy => ?_
    obtain ⟨_, -, rfl⟩ := Option.map_eq_some_iff.mp hx
    obtain ⟨_, -, rfl⟩ := Option.map_eq_some_iff.mp hy
    exact hbc
  · rw [Array.getElem?_eq_none (by rw [View.size_lists]; exact Nat.not_lt.mp hp)]
    exact .nil

namespace Buildable

theorem depth_root (h : Buildable root idoms N) :
    (ofNumbering g root idoms semis N).depthOf root = 0 := by
  change (depthTable idoms N.preorder)[root]?.getD 0 = 0
  rw [depthTable, ← Array.foldl_toList]
  change (N.preorder.toList.foldl (setDepth idoms) _)[root]?.getD 0 = 0
  rw [getElem?_foldl_setDepth _ _ fun _ => h.root_free, Array.getElem?_replicate, if_pos h.root_lt]
  rfl

theorem position (h : Buildable root idoms N) :
    (ofNumbering g root idoms semis N).preorder[i]? = some b ↔
      ∃ j, (ofNumbering g root idoms semis N).span? b = some (i, j) := by
  simp only [span?_ofNumbering]
  change N.preorder[i]? = some b ↔ _
  rw [← h.finished.pre]
  constructor
  · intro hi
    obtain ⟨j, hj⟩ := h.finished.exists_post hi
    exact ⟨j, hi, hj⟩
  · rintro ⟨_, hi, -⟩
    exact hi

theorem visits (h : Buildable root idoms N) :
    (asView idoms (childTable idoms)).Visits ∅ [root] N.preorder.toList := by
  obtain ⟨N', hN', -, htraverses⟩ := View.exists_number_traverses
    (g := asView idoms (childTable idoms)) (inRange_asView h.range root) h.root_lt
  rw [h.number] at hN'
  cases hN'
  exact View.Traverses.visits htraverses

theorem threaded (h : Buildable root idoms N) : Threaded (ofNumbering g root idoms semis N) where
  toGrown := h.grown
  toLevelled := h.levelled
  depth_root := h.depth_root
  kids_sorted := childTable_sorted
  mem_kids _ _ := step_asView_iff h.range
  preorder_nodup := h.finished.preorder_nodup
  position _ _ := h.position
  visits := h.visits

end Buildable

theorem Returned.threaded (h : t.Returned) : Threaded t := by
  obtain ⟨g, root, idoms, semis, hbuilt⟩ := h.exists_ofIdoms
  obtain ⟨N, hN, rfl⟩ := exists_buildable hbuilt
  exact hN.threaded

end Built

namespace Threaded

variable (h : Threaded t)

include h

@[elab_as_elim]
theorem rec_root {motive : BlockId → Prop} (root : motive t.root)
    (child : ∀ b p, t.idom? b = some p → motive p → motive b) (hb : t.contains b = true) :
    motive b := by
  induction hk : t.depthOf b using Nat.strongRecOn generalizing b with
  | ind k ih =>
      rcases (h.contains_iff b).mp hb with rfl | ⟨p, hp⟩
      · exact root
      · exact child b p hp (ih _ (hk ▸ h.rank b p hp) (h.contains_idom b p hp) rfl)

theorem above_root (hb : t.contains b = true) : Above t.idom? t.root b :=
  h.rec_root (.refl t.root) (fun _ _ hp ih => .of_up hp ih) hb

theorem contains_of_above (ha : t.contains a = true) (hab : Above t.idom? a b) :
    t.contains b = true := by
  rcases hab.eq_or_up with rfl | ⟨p, hp, -⟩
  · exact ha
  · exact (h.contains_iff b).mpr (.inr ⟨p, hp⟩)

theorem mem_preorder : b ∈ t.preorder ↔ t.contains b = true := by
  rw [Array.mem_iff_getElem?, contains, Option.isSome_iff_exists, Prod.exists]
  exact exists_congr fun i => h.position b i

theorem pre_lt (hp : t.idom? b = some p) {k l : Nat} (hsp : t.span? p = some (k, l))
    (hsb : t.span? b = some (i, j)) : k < i := by
  have hne : p ≠ b := fun e => (h.rank b p hp).ne (congrArg t.depthOf e)
  have habove := (h.above_iff p b (by simp [contains, hsp]) (by simp [contains, hsb])).mpr
    ⟨hne, .of_up hp (.refl p)⟩
  rw [above, hsp, hsb] at habove
  simp only [Bool.and_eq_true, decide_eq_true_eq] at habove
  exact habove.1

theorem depthOf_le (hb : t.contains b = true) :
    ∀ i j, t.span? b = some (i, j) → t.depthOf b ≤ i := by
  -- each block above `b` is entered before it
  refine h.rec_root ?_ (fun x y hxy ih => ?_) hb
  · exact fun i _ _ => h.depth_root ▸ Nat.zero_le i
  · intro i j hx
    obtain ⟨⟨k, l⟩, hy⟩ := Option.isSome_iff_exists.mp (h.contains_idom x y hxy)
    rw [h.depth x y hxy]
    exact Nat.lt_of_le_of_lt (ih k l hy) (h.pre_lt hxy hy hx)

theorem depthOf_lt_size (hb : t.contains b = true) : t.depthOf b < t.size := by
  obtain ⟨⟨i, j⟩, hij⟩ := Option.isSome_iff_exists.mp hb
  have hget := (h.position b i).mpr ⟨j, hij⟩
  exact Nat.lt_of_le_of_lt (h.depthOf_le hb i j hij) (Array.getElem?_eq_some_iff.mp hget).1

end Threaded

end ControlFlow.DomTree

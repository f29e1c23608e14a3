import ControlFlow.Proofs.Numbering.Spanning
import Mathlib.Data.List.Perm.Subperm

namespace ControlFlow.DomTree

open Relation

variable {g : View} {root b c p : BlockId} {idoms semis : Array (Option BlockId)} {t : DomTree}
  {N : Numbering}

theorem stray?_eq_none_iff :
    stray? idoms = none ↔ ∀ b p : BlockId, idoms[b]?.join = some p → p < idoms.size := by
  simp only [stray?, List.findSome?_eq_none_iff, List.mem_range, Option.bind_eq_none_iff]
  constructor
  · intro h b p hp
    have hb : b < idoms.size := by
      rw [Option.join_eq_some_iff] at hp
      exact (Array.getElem?_eq_some_iff.mp hp).1
    simpa using h b hb p hp
  · intro h b _ p hp
    simpa using h b p hp

section Kids

theorem childTable_eq_lists :
    childTable idoms = View.lists idoms.size
      ((List.range idoms.size).filterMap fun b => idoms[b]?.join.map fun p => (p, b)) := by
  rw [childTable, View.lists, List.foldr_filterMap]
  congr 1
  funext b t
  cases idoms[b]?.join <;> rfl

theorem step_asView_iff (hrange : ∀ b p : BlockId, idoms[b]?.join = some p → p < idoms.size) :
    (asView idoms (childTable idoms)).Step p b ↔ idoms[b]?.join = some p := by
  change b ∈ (childTable idoms)[p]?.getD [] ↔ _
  rw [childTable_eq_lists, View.mem_lists, List.mem_filterMap]
  constructor
  · rintro ⟨-, x, -, hx⟩
    rw [Option.map_eq_some_iff] at hx
    obtain ⟨q, hq, heq⟩ := hx
    cases heq
    exact hq
  · intro hb
    refine ⟨hrange b p hb, b, ?_, by rw [hb, Option.map_some]⟩
    rw [Option.join_eq_some_iff] at hb
    exact List.mem_range.mpr (Array.getElem?_eq_some_iff.mp hb).1

theorem inRange_asView (hrange : ∀ b p : BlockId, idoms[b]?.join = some p → p < idoms.size) (r : BlockId) :
    (asView idoms (childTable idoms)).InRange r := by
  intro b _ c hbc
  rw [step_asView_iff hrange, Option.join_eq_some_iff] at hbc
  exact (Array.getElem?_eq_some_iff.mp hbc).1

end Kids

def ofNumbering (g : View) (root : BlockId) (idoms semis : Array (Option BlockId))
    (N : Numbering) : DomTree :=
  let t : DomTree :=
    { root, idoms, semis
      kids := childTable idoms
      spans := spanTable N
      depths := depthTable idoms N.preorder
      frontiers := #[]
      preorder := N.preorder }
  { t with frontiers := t.frontierTable g }

structure Buildable (root : BlockId) (idoms : Array (Option BlockId)) (N : Numbering) : Prop where
  root_lt : root < idoms.size
  root_free : idoms[root]?.join = none
  range : ∀ b p : BlockId, idoms[b]?.join = some p → p < idoms.size
  number : (asView idoms (childTable idoms)).number root = .ok N
  size : N.size = idoms.countP (·.isSome) + 1

theorem Buildable.ofIdoms_eq (h : Buildable root idoms N) :
    ofIdoms g root idoms semis = .ok (ofNumbering g root idoms semis N) := by
  rw [ofIdoms, if_neg (Nat.not_le.mpr h.root_lt), h.root_free, stray?_eq_none_iff.mpr h.range]
  simp only [h.number]
  exact if_neg (not_not.mpr h.size)

theorem exists_buildable (h : ofIdoms g root idoms semis = .ok t) :
    ∃ N, Buildable root idoms N ∧ t = ofNumbering g root idoms semis N := by
  rw [ofIdoms] at h
  by_cases hroot : idoms.size ≤ root
  · rw [if_pos hroot] at h
    cases h
  rw [if_neg hroot] at h
  cases hfree : idoms[root]?.join with
  | some p =>
      rw [hfree] at h
      cases h
  | none =>
      rw [hfree] at h
      cases hstray : stray? idoms with
      | some bp =>
          rw [hstray] at h
          cases h
      | none =>
          rw [hstray] at h
          cases hN : (asView idoms (childTable idoms)).number root with
          | error e =>
              simp only [hN] at h
              cases h
          | ok N =>
              simp only [hN] at h
              change (if N.size ≠ idoms.countP (·.isSome) + 1 then Except.error _
                else Except.ok (ofNumbering g root idoms semis N)) = _ at h
              split at h
              · cases h
              · rename_i hsize
                exact ⟨N, ⟨Nat.not_le.mp hroot, hfree, stray?_eq_none_iff.mp hstray, hN,
                  not_not.mp hsize⟩, (Except.ok.inj h).symm⟩

section Members

theorem toList_eq_map_range : idoms.toList = (List.range idoms.size).map fun b => idoms[b]?.join := by
  refine List.ext_getElem (by simp) fun i hi _ => ?_
  have hi : i < idoms.size := by simpa using hi
  simp [hi]

def members (root : BlockId) (idoms : Array (Option BlockId)) : List BlockId :=
  root :: (List.range idoms.size).filter fun b => idoms[b]?.join.isSome

theorem mem_members : b ∈ members root idoms ↔ b = root ∨ ∃ p, idoms[b]?.join = some p := by
  rw [members, List.mem_cons, List.mem_filter, List.mem_range, Option.isSome_iff_exists,
    and_iff_right_iff_imp.mpr]
  rintro ⟨p, hp⟩
  rw [Option.join_eq_some_iff] at hp
  exact (Array.getElem?_eq_some_iff.mp hp).1

theorem members_nodup (hfree : idoms[root]?.join = none) : (members root idoms).Nodup := by
  rw [members, List.nodup_cons]
  exact ⟨by simp [hfree], List.nodup_range.filter _⟩

theorem length_members : (members root idoms).length = idoms.countP (·.isSome) + 1 := by
  rw [members, List.length_cons, ← Array.countP_toList, toList_eq_map_range, List.countP_map,
    List.countP_eq_length_filter]
  rfl

variable (hrange : ∀ b p : BlockId, idoms[b]?.join = some p → p < idoms.size)
  (hN : N.Finished (asView idoms (childTable idoms)) root)

include hrange hN

theorem parent?_eq (hfree : idoms[root]?.join = none) (hb : N.pre? b = some i) :
    N.parent? b = idoms[b]?.join := by
  by_cases hbr : b = root
  · rw [hbr, hN.parent_root, hfree]
  · obtain ⟨p, hp⟩ := hN.has_parent b i hb hbr
    rw [hp, (step_asView_iff hrange).mp (hN.parent_edge b p hp)]

theorem preorder_subset : N.preorder.toList ⊆ members root idoms := by
  intro b hb
  rw [Array.mem_toList_iff, hN.mem_preorder, ← hN.contains_iff, Numbering.contains_iff] at hb
  obtain ⟨i, hi⟩ := hb
  rw [mem_members]
  by_cases hbr : b = root
  · exact .inl hbr
  · obtain ⟨p, hp⟩ := hN.has_parent b i hi hbr
    exact .inr ⟨p, (step_asView_iff hrange).mp (hN.parent_edge b p hp)⟩

theorem size_eq_iff (hfree : idoms[root]?.join = none) :
    N.size = idoms.countP (·.isSome) + 1 ↔ members root idoms ⊆ N.preorder.toList := by
  have hsub := hN.preorder_nodup.subperm (preorder_subset hrange hN)
  rw [← length_members, Numbering.size, ← Array.length_toList]
  constructor
  · exact fun hlen => (hsub.perm_of_length_le hlen.ge).symm.subset
  · exact fun hsup => le_antisymm hsub.length_le
      ((members_nodup hfree).subperm hsup).length_le

omit hN in
theorem reaches_of_rank (rank : BlockId → Nat)
    (hrank : ∀ b p : BlockId, idoms[b]?.join = some p → rank p < rank b)
    (hclosed : ∀ b p : BlockId, idoms[b]?.join = some p → p ∈ members root idoms)
    (hb : b ∈ members root idoms) : (asView idoms (childTable idoms)).Reaches root b := by
  induction hk : rank b using Nat.strongRecOn generalizing b with
  | ind k ih =>
      rcases mem_members.mp hb with rfl | ⟨p, hp⟩
      · exact .refl
      · have hreach := ih (rank p) (hk ▸ hrank b p hp) (hclosed b p hp) rfl
        exact hreach.tail ((step_asView_iff hrange).mpr hp)

end Members

theorem exists_ofIdoms (g : View) (semis : Array (Option BlockId)) (rank : BlockId → Nat)
    (hroot : root < idoms.size) (hfree : idoms[root]?.join = none)
    (hrank : ∀ b p : BlockId, idoms[b]?.join = some p → rank p < rank b)
    (hclosed : ∀ b p : BlockId, idoms[b]?.join = some p → p ∈ members root idoms) :
    ∃ t, ofIdoms g root idoms semis = .ok t := by
  have hrange : ∀ b p : BlockId, idoms[b]?.join = some p → p < idoms.size := by
    intro b p hp
    rcases mem_members.mp (hclosed b p hp) with rfl | ⟨q, hq⟩
    · exact hroot
    · rw [Option.join_eq_some_iff] at hq
      exact (Array.getElem?_eq_some_iff.mp hq).1
  obtain ⟨N, hnum, hN⟩ := View.number_finished (g := asView idoms (childTable idoms)) hroot
    (inRange_asView hrange root)
  refine ⟨_, Buildable.ofIdoms_eq ⟨hroot, hfree, hrange, hnum, ?_⟩⟩
  rw [size_eq_iff hrange hN hfree]
  intro b hb
  rw [Array.mem_toList_iff, hN.mem_preorder]
  exact reaches_of_rank hrange rank hrank hclosed hb

structure Grown (t : DomTree) : Prop where
  idom_root : t.idom? t.root = none
  contains_iff : ∀ b, t.contains b = true ↔ b = t.root ∨ ∃ p, t.idom? b = some p
  contains_idom : ∀ b p, t.idom? b = some p → t.contains p = true
  above_iff : ∀ a b, t.contains a = true → t.contains b = true →
    (t.above a b = true ↔ a ≠ b ∧ Above t.idom? a b)

theorem span?_ofNumbering {i j : Nat} :
    (ofNumbering g root idoms semis N).span? b = some (i, j) ↔
      N.pre? b = some i ∧ N.post? b = some j := by
  change (spanTable N)[b]?.join = _ ↔ _
  rw [spanTable, Option.join_eq_some_iff, Array.getElem?_map]
  by_cases hb : b < N.bound
  · rw [Array.getElem?_range, if_pos hb, Option.map_some, Option.some.injEq]
    cases N.pre? b <;> cases N.post? b <;> simp
  · rw [Array.getElem?_range, if_neg hb, Option.map_none]
    have hpre : N.pre? b = none := by
      rw [Numbering.pre?, Array.getElem?_eq_none (Nat.not_lt.mp hb), Option.join_none]
    simp [hpre]

namespace Buildable

theorem finished (h : Buildable root idoms N) :
    N.Finished (asView idoms (childTable idoms)) root := by
  obtain ⟨N', hN', hfin⟩ := View.number_finished (g := asView idoms (childTable idoms)) h.root_lt
    (inRange_asView h.range root)
  rw [h.number] at hN'
  cases hN'
  exact hfin

theorem mem_preorder_iff (h : Buildable root idoms N) :
    b ∈ N.preorder ↔ b = root ∨ ∃ p, idoms[b]?.join = some p := by
  rw [← mem_members, ← Array.mem_toList_iff]
  exact ⟨fun hb => preorder_subset h.range h.finished hb,
    fun hb => (size_eq_iff h.range h.finished h.root_free).mp h.size hb⟩

theorem exists_pre_iff (h : Buildable root idoms N) :
    (∃ i, N.pre? b = some i) ↔ b = root ∨ ∃ p, idoms[b]?.join = some p := by
  rw [← h.mem_preorder_iff, h.finished.mem_preorder, ← h.finished.contains_iff,
    Numbering.contains_iff]

theorem contains_iff (h : Buildable root idoms N) :
    (ofNumbering g root idoms semis N).contains b = true ↔ ∃ i, N.pre? b = some i := by
  rw [contains, Option.isSome_iff_exists]
  constructor
  · rintro ⟨⟨i, j⟩, hij⟩
    exact ⟨i, (span?_ofNumbering.mp hij).1⟩
  · rintro ⟨i, hi⟩
    obtain ⟨j, hj⟩ := h.finished.exists_post hi
    exact ⟨(i, j), span?_ofNumbering.mpr ⟨hi, hj⟩⟩

theorem above_parent_iff (h : Buildable root idoms N) (hb : N.pre? b = some i) :
    Above N.parent? a b ↔ Above (fun b => idoms[b]?.join) a b := by
  constructor
  · refine Above.mono fun x y hxy => ?_
    exact (step_asView_iff h.range).mp (h.finished.parent_edge x y hxy)
  · intro hab
    induction hab using ReflTransGen.head_induction_on generalizing i with
    | refl => exact .refl _
    | @head x y hxy _ ih =>
        have hp : N.parent? x = some y :=
          (parent?_eq h.range h.finished h.root_free hb).trans hxy
        obtain ⟨j, _, hj, _, _⟩ := h.finished.parent_pre x y hp
        exact .of_up hp (ih hj)

theorem grown (h : Buildable root idoms N) : Grown (ofNumbering g root idoms semis N) where
  idom_root := h.root_free
  contains_iff b := by
    rw [h.contains_iff, h.exists_pre_iff]
    rfl
  contains_idom b p hp := by
    have hb : ∃ i, N.pre? b = some i := h.exists_pre_iff.mpr (.inr ⟨p, hp⟩)
    obtain ⟨i, hi⟩ := hb
    have hpar : N.parent? b = some p := by
      rw [parent?_eq h.range h.finished h.root_free hi]
      exact hp
    obtain ⟨j, _, hj, _, _⟩ := h.finished.parent_pre b p hpar
    exact h.contains_iff.mpr ⟨j, hj⟩
  above_iff a b ha hb := by
    obtain ⟨i, hi⟩ := h.contains_iff.mp ha
    obtain ⟨k, hk⟩ := h.contains_iff.mp hb
    obtain ⟨j, hj⟩ := h.finished.exists_post hi
    obtain ⟨l, hl⟩ := h.finished.exists_post hk
    have hab : Above (ofNumbering g root idoms semis N).idom? a b ↔ i ≤ k ∧ l ≤ j := by
      rw [← h.finished.above_iff hi hk hj hl]
      exact (h.above_parent_iff hk).symm
    rw [hab, above, span?_ofNumbering.mpr ⟨hi, hj⟩, span?_ofNumbering.mpr ⟨hk, hl⟩]
    simp only [Bool.and_eq_true, decide_eq_true_eq]
    constructor
    · rintro ⟨hik, hlj⟩
      refine ⟨?_, hik.le, hlj.le⟩
      rintro rfl
      exact hik.ne (Option.some.inj (hi.symm.trans hk))
    · rintro ⟨hne, hik, hlj⟩
      refine ⟨lt_of_le_of_ne hik ?_, lt_of_le_of_ne hlj ?_⟩
      · rintro rfl
        exact hne (h.finished.pre.inj hi hk)
      · rintro rfl
        exact hne (h.finished.post.inj hj hl)

end Buildable

theorem ofIdoms_grown (h : ofIdoms g root idoms semis = .ok t) :
    Grown t ∧ t.root = root ∧ t.idoms = idoms ∧ t.semis = semis := by
  obtain ⟨N, hN, rfl⟩ := exists_buildable h
  exact ⟨hN.grown, rfl, rfl, rfl⟩

end ControlFlow.DomTree

import ControlFlow.Proofs.Dominators
import ControlFlow.Proofs.Numbering.Reverse
import ControlFlow.Proofs.Visits

namespace ControlFlow

variable {g : View} {b root : BlockId} {bs : List BlockId} {stops : List Stop} {s : IdSet}

theorem exists_finishOrder (hrange : g.InRange root) (hcap : s.capacity = g.bound)
    (hstops : ∀ b, .enter b ∈ stops → b < g.bound ∧ g.Reaches root b) :
    ∃ vs fs, finishOrder g stops s = .ok fs ∧ g.Traverses s.members stops vs fs := by
  fun_induction finishOrder g stops s with
  | case1 s => exact ⟨[], [], rfl, .done _⟩
  | case2 b stops s ih =>
      obtain ⟨vs, fs, heq, h⟩ := ih hcap fun c hc => hstops c (List.mem_cons_of_mem _ hc)
      exact ⟨vs, b :: fs, by rw [heq]; rfl, .leave h⟩
  | case3 b stops s hlt hseen ih =>
      obtain ⟨vs, fs, heq, h⟩ := ih hcap fun c hc => hstops c (List.mem_cons_of_mem _ hc)
      exact ⟨vs, fs, heq, .skip hseen h⟩
  | case4 b stops s hlt hnew ih =>
      obtain ⟨-, hreach⟩ := hstops b List.mem_cons_self
      have hsuccs : ∀ c ∈ g.succs b, c < g.bound := hrange b hreach
      have hpushed : ∀ c, .enter c ∈
          ((g.succs b).filter fun c => !(s.put b).has c).map Stop.enter ++ .leave b :: stops →
            c < g.bound ∧ g.Reaches root c := by
        intro c hc
        simp only [List.mem_append, List.mem_map, List.mem_filter, List.mem_cons] at hc
        rcases hc with ⟨d, ⟨hd, -⟩, hdc⟩ | hc | hc
        · cases hdc
          exact ⟨hsuccs c hd, hreach.tail hd⟩
        · cases hc
        · exact hstops c (List.mem_cons_of_mem _ hc)
      obtain ⟨vs, fs, heq, h⟩ := ih _ hcap hpushed
      rw [IdSet.unseen_eq fun c hc => hcap ▸ hsuccs c hc]
      refine ⟨b :: vs, fs, heq, ?_⟩
      rw [IdSet.members_put hlt] at h
      refine .of_pushed hnew (fun c _ hqc => ?_) h
      rw [← IdSet.members_put hlt]
      simpa [IdSet.members] using hqc
  | case5 b stops s hlt => exact absurd (hcap ▸ (hstops b List.mem_cons_self).1) hlt

def Frame.pending : List Frame → List Stop
  | [] => []
  | f :: fs => f.rest.map .enter ++ .leave f.block :: pending fs

namespace Numbering

variable {stack : List Frame} {N N' : Numbering} {i : Nat}

def entered (N : Numbering) : Set BlockId :=
  {b | b ∈ N.preorder.toList}

theorem Running.mem_entered (h : Running g root stack N) :
    b ∈ N.entered ↔ ∃ i, N.pre? b = some i := by
  rw [entered, Set.mem_ofPred_eq, Array.mem_toList_iff, Array.mem_iff_getElem?]
  exact exists_congr fun i => (h.pre b i).symm

theorem Running.traverses (h : Running g root stack N) (hrun : Numbering.run g stack N = .ok N') :
    ∃ vs fs, g.Traverses N.entered (Frame.pending stack) vs fs ∧
      N'.preorder.toList = N.preorder.toList ++ vs ∧
      N'.postorder.toList = N.postorder.toList ++ fs := by
  fun_induction Numbering.run g stack N with
  | case1 N =>
      cases hrun
      exact ⟨[], [], .done _, by simp, by simp⟩
  | case2 u stack N ih =>
      obtain ⟨vs, fs, ht, hpre, hpost⟩ := ih h.leave hrun
      exact ⟨vs, u :: fs, .leave ht, hpre, by simpa [Numbering.leave] using hpost⟩
  | case3 u v vs stack N hv => cases hrun
  | case4 u v vs stack N hv ih =>
      obtain ⟨ws, fs, ht, hpre, hpost⟩ := ih (h.descend hv _) hrun
      refine ⟨v :: ws, fs, ?_, by simpa [cross, enter] using hpre, hpost⟩
      have hnew : v ∉ N.entered := by simp [h.mem_entered, pre?, hv]
      have hput : ((N.cross u v (N.classify u v)).enter v (some u)).entered =
          insert v N.entered := by
        ext c
        simp [entered, cross, enter, or_comm]
      rw [hput] at ht
      refine .of_pushed (q := fun _ => true) hnew (fun _ _ h => absurd h.symm Bool.false_ne_true) ?_
      simpa [Frame.pending] using ht
  | case5 u v vs stack N j hv ih =>
      have hpre? : N.pre? v = some j := by rw [pre?, hv]; rfl
      obtain ⟨ws, fs, ht, hpre, hpost⟩ := ih (h.skip _ hpre?) hrun
      exact ⟨ws, fs, .skip (h.mem_entered.mpr ⟨j, hpre?⟩) ht, hpre, hpost⟩

end Numbering

theorem View.exists_number_traverses (hrange : g.InRange root) (hroot : root < g.bound) :
    ∃ N, g.number root = .ok N ∧ N.Finished g root ∧
      g.Traverses ∅ [.enter root] N.preorder.toList N.postorder.toList := by
  obtain ⟨N, hN, hfinished⟩ := number_finished hroot hrange
  refine ⟨N, hN, hfinished, ?_⟩
  rw [number, if_pos hroot] at hN
  obtain ⟨vs, fs, h, hpre, hpost⟩ := (Numbering.running_start hroot).traverses hN
  have hentered : ((Numbering.blank root g.bound).enter root none).entered = insert root ∅ := by
    ext c
    simp [Numbering.entered, Numbering.blank, Numbering.enter]
  rw [hentered] at h
  rw [hpre, hpost]
  refine .of_pushed (q := fun _ => true) (Set.notMem_empty root)
    (fun _ _ h => absurd h.symm Bool.false_ne_true) ?_
  simpa [Frame.pending, Numbering.blank, Numbering.enter] using h

theorem View.exists_postorder_traverses (hrange : g.InRange root) (hroot : root < g.bound) :
    ∃ vs fs, g.postorder root = .ok fs ∧ g.Traverses ∅ [.enter root] vs fs := by
  rw [postorder, if_pos hroot, ← IdSet.members_empty g.bound]
  refine exists_finishOrder hrange rfl fun b hb => ?_
  cases List.mem_singleton.mp hb
  exact ⟨hroot, .refl⟩

theorem Walk.take_eq {w : Walk} (h : w.rest g = .ok bs) (k : Nat) :
    Walk.take g k w = .ok (bs.take k) := by
  induction k generalizing w bs with
  | zero => rfl
  | succ k ih =>
      rw [rest_eq] at h
      rw [take]
      cases hnext : next g w.pending w.seen with
      | error e => simp [hnext] at h
      | ok found =>
          cases found with
          | none =>
              rw [hnext] at h
              cases h
              rfl
          | some found =>
              obtain ⟨b, w'⟩ := found
              rw [hnext] at h
              cases hrest : w'.rest g with
              | error e => simp [hrest, bind, Except.bind] at h
              | ok cs =>
                  simp only [hrest, bind, Except.bind, pure, Except.pure, Except.ok.injEq] at h
                  subst h
                  simp [bind, Except.bind, pure, Except.pure, ih hrest]

structure Numbers (P : BlockId → Prop) (n : Nat) (num : BlockId → Option Nat)
    (block : Nat → Option BlockId) : Prop where
  inverse : ∀ b i, num b = some i ↔ block i = some b
  blocks : ∀ b, P b ↔ ∃ i, num b = some i
  numbers : ∀ i, i < n ↔ ∃ b, block i = some b

namespace Numbering.Running

variable {N : Numbering} {i k : Nat}

theorem exists_pre_iff (h : N.Finished g root) : g.Reaches root b ↔ ∃ i, N.pre? b = some i := by
  rw [← h.contains_iff, Numbering.contains_iff]

theorem numbers_pre (h : N.Finished g root) :
    Numbers (g.Reaches root) N.size N.pre? N.block? where
  inverse := h.pre
  blocks _ := h.exists_pre_iff
  numbers i := by simp [block?, size, Array.getElem?_eq_some_iff]

theorem numbers_post (h : N.Finished g root) :
    Numbers (g.Reaches root) N.size N.post? (N.postorder[·]?) where
  inverse := h.post
  blocks b := by
    rw [h.exists_pre_iff]
    constructor
    · rintro ⟨i, hi⟩
      exact h.exists_post hi
    · rintro ⟨k, hk⟩
      exact h.closed b k hk
  numbers i := by
    rw [size, ← postorder_size h]
    simp [Array.getElem?_eq_some_iff]

theorem exists_rpost (h : N.Finished g root) (hk : N.post? b = some k) :
    ∃ r, N.rpost? b = some r ∧ r + k + 1 = N.size := by
  have hlt : k < N.size := by
    rw [size, ← postorder_size h]
    exact h.post.lt_size hk
  exact ⟨N.size - 1 - k, by rw [rpost?, hk]; rfl, by omega⟩

theorem exists_parent (h : N.Finished g root) (hb : g.Reaches root b) (hne : b ≠ root) :
    ∃ p i j, N.parent? b = some p ∧ g.Reaches root p ∧ g.Step p b ∧
      N.pre? p = some i ∧ N.pre? b = some j ∧ i < j := by
  obtain ⟨j, hj⟩ := h.exists_pre_iff.mp hb
  obtain ⟨p, hp⟩ := h.has_parent b j hj hne
  obtain ⟨i, j, hi, hj, hij⟩ := h.parent_pre b p hp
  exact ⟨p, i, j, hp, h.reaches hi, h.parent_edge b p hp, hi, hj, hij⟩

end Numbering.Running

theorem View.walks_agree (g : View) (root : BlockId) (hroot : root < g.bound)
    (hrange : g.InRange root) :
    ∃ N, g.number root = .ok N ∧
      g.preorder root = .ok N.preorder.toList ∧
      (∀ k, g.preorderTake root k = .ok (N.preorder.toList.take k)) ∧
      (∀ vs, g.Visits ∅ [root] vs ↔ vs = N.preorder.toList) ∧
      g.postorder root = .ok N.postorder.toList ∧
      g.reversePostorder root = .ok N.postorder.toList.reverse ∧
      (∃ s, g.reachable root = .ok s ∧ ∀ b, s.has b = true ↔ g.Reaches root b) ∧
      Numbers (g.Reaches root) N.size N.pre? N.block? ∧
      Numbers (g.Reaches root) N.size N.post? (N.postorder[·]?) ∧
      (∀ b k, N.post? b = some k → ∃ r, N.rpost? b = some r ∧ r + k + 1 = N.size) ∧
      ∀ b, g.Reaches root b → b ≠ root →
        ∃ p i j, N.parent? b = some p ∧ g.Reaches root p ∧ g.Step p b ∧
          N.pre? p = some i ∧ N.pre? b = some j ∧ i < j := by
  obtain ⟨N, hN, hfinished, htraverses⟩ := exists_number_traverses hrange hroot
  have hvisits : g.Visits ∅ [root] N.preorder.toList := Traverses.visits htraverses
  obtain ⟨vs, hpre, hvs⟩ := exists_visits hrange hroot
  obtain rfl := hvs.unique hvisits
  obtain ⟨us, fs, hpost, hfs⟩ := exists_postorder_traverses hrange hroot
  obtain ⟨-, rfl⟩ := hfs.unique htraverses
  obtain ⟨seen, hseen, -, hreached⟩ := exists_reachable hrange hroot
  refine ⟨N, hN, hpre, Walk.take_eq hpre, fun ws => ⟨fun hws => hws.unique hvisits, ?_⟩, hpost, ?_,
    ⟨seen, hseen, hreached⟩, hfinished.numbers_pre, hfinished.numbers_post,
    fun b k => hfinished.exists_rpost, fun b => hfinished.exists_parent⟩
  · rintro rfl
    exact hvisits
  · rw [reversePostorder, hpost]
    rfl

theorem View.walks_agree_tangle :
    0 < tangle.bound ∧ tangle.toView.InRange 0 ∧ ∃ N, tangle.toView.number 0 = .ok N ∧
      N.preorder.toList = [0, 1, 2, 3] ∧ tangle.toView.Visits ∅ [0] [0, 1, 2, 3] ∧
      tangle.toView.preorderTake 0 2 = .ok [0, 1] ∧
      tangle.toView.postorder 0 = .ok N.postorder.toList ∧
      tangle.toView.reversePostorder 0 = .ok N.postorder.toList.reverse ∧
      Numbers (tangle.Reaches 0) N.size N.pre? N.block? ∧
      Numbers (tangle.Reaches 0) N.size N.post? (N.postorder[·]?) := by
  have hsound : tangle.toView.Sound 0 := sound_ofEdges (by decide) (by decide)
  have hpre : tangle.toView.preorder 0 = .ok [0, 1, 2, 3] := by decide +kernel
  obtain ⟨N, hN, hNpre, htake, hvisits, hpost, hreverse, -, hnumbers, hposts, -⟩ :=
    walks_agree tangle.toView 0 (by decide) hsound.inRange
  have heq : N.preorder.toList = [0, 1, 2, 3] := Except.ok.inj (hNpre.symm.trans hpre)
  refine ⟨by decide, hsound.inRange, N, hN, heq, (hvisits _).mpr heq.symm, ?_, hpost, hreverse,
    hnumbers, hposts⟩
  rw [htake, heq]
  rfl

end ControlFlow

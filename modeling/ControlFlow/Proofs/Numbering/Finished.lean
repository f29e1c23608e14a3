import ControlFlow.Proofs.Numbering.Running
import Mathlib.Data.List.Nodup

namespace ControlFlow

open Relation

def View.InRange (g : View) (root : BlockId) : Prop :=
  ∀ b, g.Reaches root b → ∀ c, g.Step b c → c < g.bound

namespace Numbering

variable {g : View} {root a b c u v w : BlockId} {stack : List Frame} {N : Numbering}
  {i j k l : Nat}

abbrev Finished (g : View) (root : BlockId) (N : Numbering) : Prop :=
  Running g root [] N

theorem lt_bound_of_pre (hb : N.pre? b = some i) : b < N.bound := by
  by_contra hlt
  rw [pre?, Array.getElem?_eq_none (Nat.not_lt.mp hlt), Option.join_none] at hb
  cases hb

section Begin

variable {bound : Nat}

theorem pre?_begin (hroot : root < bound) :
    ((blank root bound).enter root none).pre? c = some i ↔ root = c ∧ i = 0 := by
  have hblank : (blank root bound).pre? c = none := by
    simp only [pre?, blank, Array.getElem?_replicate]
    split <;> rfl
  rw [pre?_enter (by simpa [blank] using hroot), hblank]
  by_cases hc : root = c
  · rw [if_pos hc, Option.some.injEq, eq_comm]
    exact (and_iff_right hc).symm
  · simp [hc]

theorem parent?_begin (hroot : root < bound) :
    ((blank root bound).enter root none).parent? c = none := by
  rw [parent?_enter (by simpa [blank] using hroot)]
  split
  · rfl
  · simp only [parent?, blank, Array.getElem?_replicate]
    split <;> rfl

theorem post?_begin : ((blank root bound).enter root none).post? c = none := by
  simp only [post?, enter, blank, Array.getElem?_replicate]
  split <;> rfl

theorem running_start (hroot : root < g.bound) :
    Running g root [⟨root, g.succs root⟩] ((blank root g.bound).enter root none) where
  root_eq := rfl
  sizes := by simp [enter, blank]
  pre c i := by
    rw [pre?_begin hroot]
    cases i <;> simp [enter, blank]
  post := by
    have hnone : ((blank root g.bound).enter root none).post? = fun _ => none :=
      funext fun _ => post?_begin
    exact hnone ▸ .empty
  root_first := (pre?_begin hroot).mpr ⟨rfl, rfl⟩
  parent_root := parent?_begin hroot
  has_parent c i hc hne := absurd ((pre?_begin hroot).mp hc).1.symm hne
  parent_edge c p hp := by simp [parent?_begin hroot] at hp
  parent_pre c p hp := by simp [parent?_begin hroot] at hp
  parent_post c p k hp := by simp [parent?_begin hroot] at hp
  closed c k hc := by simp [post?_begin] at hc
  open_iff c := by simp [pre?_begin hroot, post?_begin, eq_comm]
  chain := List.isChain_singleton root
  crossed c i hc := by
    obtain ⟨rfl, -⟩ := (pre?_begin hroot).mp hc
    simp [Numbering.crossed, enter, blank, Frame.restOf]
  crossings e he := by simp [enter, blank] at he
  nested c d i j hc hd _ _ := by
    obtain ⟨rfl, -⟩ := (pre?_begin hroot).mp hc
    obtain ⟨rfl, -⟩ := (pre?_begin hroot).mp hd
    exact .refl root
  down c d i j k _ _ _ _ hk := by simp [post?_begin] at hk

end Begin

theorem Running.reaches (h : Running g root stack N) (hb : N.pre? b = some i) :
    g.Reaches root b := by
  induction hk : i using Nat.strongRecOn generalizing b i with
  | ind k ih =>
      by_cases hbr : b = root
      · exact hbr ▸ .refl
      · obtain ⟨p, hp⟩ := h.has_parent b i hb hbr
        obtain ⟨x, y, hx, hy, hxy⟩ := h.parent_pre b p hp
        have hyi : y = i := Option.some.inj (hy.symm.trans hb)
        have hreach := ih x (by omega) hx rfl
        exact hreach.tail (h.parent_edge b p hp)

theorem Running.run (h : Running g root stack N) :
    (∃ N', Numbering.run g stack N = .ok N' ∧ Finished g root N') ∨
      Numbering.run g stack N = .error .indexOutOfBounds ∧ ¬g.InRange root := by
  fun_induction Numbering.run g stack N with
  | case1 N => exact .inl ⟨N, rfl, h⟩
  | case2 u stack N ih => exact ih h.leave
  | case3 u v vs stack N hv =>
      refine .inr ⟨rfl, fun hrange => ?_⟩
      obtain ⟨⟨i, hi⟩, -⟩ := h.top
      have hlt := hrange u (h.reaches hi) v h.step_top
      rw [← h.sizes.1] at hlt
      simp [hlt] at hv
  | case4 u v vs stack N hv ih => exact ih (h.descend hv _)
  | case5 u v vs stack N j hv ih =>
      refine ih (h.skip _ (j := j) ?_)
      rw [pre?, hv]
      rfl

namespace Running

theorem contains_iff (h : Finished g root N) : N.contains b = true ↔ g.Reaches root b := by
  rw [Numbering.contains_iff]
  constructor
  · rintro ⟨i, hi⟩
    exact h.reaches hi
  · intro hb
    induction hb with
    | refl => exact ⟨0, h.root_first⟩
    | @tail b c _ hbc ih =>
        obtain ⟨i, hi⟩ := ih
        have hall := h.crossed b i hi
        rw [Frame.restOf, List.append_nil] at hall
        rw [View.Step, ← hall, Numbering.crossed, List.mem_map] at hbc
        obtain ⟨e, he, rfl⟩ := hbc
        exact (h.crossings e (Array.mem_toList_iff.mp (List.mem_filter.mp he).1)).2

theorem crossed_eq (h : Finished g root N) (hu : g.Reaches root u) : N.crossed u = g.succs u := by
  rw [← h.contains_iff, Numbering.contains_iff] at hu
  obtain ⟨i, hi⟩ := hu
  rw [← h.crossed u i hi, Frame.restOf, List.append_nil]

theorem mem_crossed {e : Crossing} (he : e ∈ N.crossings) : e.target ∈ N.crossed e.source := by
  refine List.mem_map_of_mem (List.mem_filter.mpr ⟨Array.mem_toList_iff.mpr he, ?_⟩)
  exact beq_self_eq_true _

theorem step_of_mem (h : Finished g root N) {e : Crossing} (he : e ∈ N.crossings) :
    g.Reaches root e.source ∧ g.Step e.source e.target := by
  obtain ⟨⟨i, hi⟩, -⟩ := h.crossings e he
  have hreach := h.reaches hi
  refine ⟨hreach, ?_⟩
  rw [View.Step, ← h.crossed_eq hreach]
  exact mem_crossed he

theorem exists_crossing (h : Finished g root N) (hu : g.Reaches root u) (huv : g.Step u v) :
    ∃ c, ⟨u, v, c⟩ ∈ N.crossings := by
  rw [View.Step, ← h.crossed_eq hu, Numbering.crossed, List.mem_map] at huv
  obtain ⟨⟨a, b, c⟩, he, rfl⟩ := huv
  obtain ⟨he, hu⟩ := List.mem_filter.mp he
  rw [← eq_of_beq hu]
  exact ⟨c, Array.mem_toList_iff.mp he⟩

theorem kind_unique (h : Finished g root N) (hnodup : (g.succs u).Nodup) {c d : EdgeClass}
    (hc : ⟨u, v, c⟩ ∈ N.crossings) (hd : ⟨u, v, d⟩ ∈ N.crossings) : c = d := by
  have hall : (N.crossed u).Nodup := by rwa [h.crossed_eq (h.step_of_mem hc).1]
  have hmem : ∀ {k : EdgeClass}, ⟨u, v, k⟩ ∈ N.crossings →
      (⟨u, v, k⟩ : Crossing) ∈ N.crossings.toList.filter (·.source == u) := by
    intro k hk
    exact List.mem_filter.mpr ⟨Array.mem_toList_iff.mpr hk, beq_self_eq_true u⟩
  have heq := List.inj_on_of_nodup_map hall (hmem hc) (hmem hd) rfl
  cases heq
  rfl

theorem exists_post (h : Finished g root N) (hb : N.pre? b = some i) :
    ∃ k, N.post? b = some k := by
  cases hk : N.post? b with
  | some k => exact ⟨k, rfl⟩
  | none => exact absurd ((h.open_iff b).mpr ⟨⟨i, hb⟩, hk⟩) List.not_mem_nil

theorem post_le (h : Running g root stack N) (hab : Above N.parent? u v) (hu : N.post? u = some k)
    (hv : N.post? v = some l) : l ≤ k := by
  induction hab generalizing k with
  | refl => exact (Option.some.inj (hu.symm.trans hv)).ge
  | @tail x y _ hxy ih =>
      obtain ⟨m, hm, hmk⟩ := h.parent_post x y k hxy hu
      exact Nat.le_trans (ih hm) (Nat.le_of_lt hmk)

theorem above_iff (h : Finished g root N) (hu : N.pre? u = some i) (hv : N.pre? v = some j)
    (hku : N.post? u = some k) (hlv : N.post? v = some l) :
    Above N.parent? u v ↔ i ≤ j ∧ l ≤ k := by
  constructor
  · exact fun hab => ⟨h.pre_le hab hu hv, h.post_le hab hku hlv⟩
  · rintro ⟨hij, hlk⟩
    exact h.nested u v i j hu hv hij (.inr ⟨k, l, hku, hlv, hlk⟩)

theorem above_of_le (h : Finished g root N) (huw : Above N.parent? u w) (hu : N.pre? u = some i)
    (hv : N.pre? v = some j) (hw : N.pre? w = some k) (hij : i ≤ j) (hjk : j ≤ k) :
    Above N.parent? u v := by
  obtain ⟨pu, hpu⟩ := h.exists_post hu
  obtain ⟨pv, hpv⟩ := h.exists_post hv
  obtain ⟨pw, hpw⟩ := h.exists_post hw
  have hwu := h.post_le huw hpu hpw
  by_cases hle : pv ≤ pu
  · exact (h.above_iff hu hv hpu hpv).mpr ⟨hij, hle⟩
  · have hvw : Above N.parent? v w := (h.above_iff hv hw hpv hpw).mpr ⟨hjk, by omega⟩
    refine Above.of_rank_le h.rank huw hvw ?_
    simpa [hu, hv] using hij

theorem above_of_step (h : Finished g root N) (huv : g.Step u v) (hu : N.pre? u = some i)
    (hv : N.pre? v = some j) (hij : i < j) : Above N.parent? u v := by
  obtain ⟨k, hk⟩ := h.exists_post hu
  obtain ⟨l, hl, hlk⟩ := h.down u v i j k huv hu hv hij hk
  exact (h.above_iff hu hv hk hl).mpr ⟨hij.le, hlk.le⟩

theorem preorder_nodup (h : Running g root stack N) : N.preorder.toList.Nodup :=
  h.pre.nodup

theorem mem_preorder (h : Finished g root N) : b ∈ N.preorder ↔ g.Reaches root b := by
  rw [← h.contains_iff, Numbering.contains_iff, Array.mem_iff_getElem?]
  exact exists_congr fun i => (h.pre b i).symm

end Running

end Numbering

theorem View.number_finished {g : View} {root : BlockId} (hroot : root < g.bound)
    (hrange : g.InRange root) : ∃ N, g.number root = .ok N ∧ N.Finished g root := by
  rw [View.number, if_pos hroot]
  exact (Numbering.running_start hroot).run.resolve_right fun h => h.2 hrange

theorem View.finished_of_number {g : View} {root : BlockId} {N : Numbering}
    (hnum : g.number root = .ok N) (hne : N.isEmpty = false) : N.Finished g root := by
  rw [View.number] at hnum
  split at hnum
  · rename_i hroot
    rcases (Numbering.running_start hroot).run with ⟨N', hrun, hN'⟩ | ⟨hrun, -⟩
    · cases hrun.symm.trans hnum
      exact hN'
    · cases hrun.symm.trans hnum
  · cases hnum
    cases hne

end ControlFlow

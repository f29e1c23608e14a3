import ControlFlow.Proofs.Semidominator.Sweep

namespace ControlFlow

open Relation

variable {n : Nat} {S : Spanning n} {c i u v : Fin n}

namespace Sweep

variable {s : Sweep n}

theorem Swept.provisional (hS : S.DepthFirst) (hs : Swept S 1 s) (hv : v.val ≠ 0) :
    S.Provisional v (s.idom.get v) := by
  have hpos : 1 ≤ v.val := Nat.one_le_iff_ne_zero.mpr hv
  refine hs.settled hS v hpos fun hmem => ?_
  obtain ⟨-, -, hlast⟩ := hs.waits v _ hmem
  have hlt := hs.lt v hpos
  have hsemi := hS.isSemidominator_iff.mpr (hs.least v hpos)
  have habove := Spanning.DepthFirst.Detour.above hS hsemi.1 hlt
  obtain ⟨q, hq, hqk, -, hqv⟩ := hS.descends.exists_child habove hlt.ne
  exact hlast q hq hqk (Nat.one_le_iff_ne_zero.mpr hq) (hS.descends.le hqv)

variable {r : Fin n} {semi idom : Vector (Fin n) n}

theorem isIdom_close (hS : S.DepthFirst) (hr : r.val = 0) (hi : i.val ≠ 0)
    (hsemi : S.IsSemidominator (semi.get i) i) (hprov : S.Provisional i (idom.get i))
    (hlower : ∀ u : Fin n, u.val ≠ 0 → u < i → IsIdom S.Edge r (idom.get u) u) :
    IsIdom S.Edge r ((close semi idom i).get i) i := by
  have hlt : semi.get i < i :=
    lt_of_le_of_lt (hsemi.2 (hS.parent_detour hi)) (hS.descends i hi)
  rw [close]
  cases hprov with
  | own hd hleast =>
      have heq : idom.get i = semi.get i := hd.unique hsemi
      rw [if_pos heq]
      exact hS.isIdom_semidominator hr hd (heq ▸ hlt) hleast
  | shared k m hk habove hkd hm hmk hleast =>
      have heq : semi.get i = k := hsemi.unique hk
      have hne : idom.get i ≠ semi.get i := heq ▸ hkd.ne'
      have hdi : idom.get i < i := by
        refine lt_of_le_of_ne (hS.descends.le habove) fun e => hmk.ne ?_
        exact hm.unique (e.symm ▸ hk)
      have hd0 : (idom.get i).val ≠ 0 := fun e => by
        have hlt : k.val < (idom.get i).val := hkd
        omega
      rw [if_neg hne, vector_get_set, if_pos rfl]
      exact hS.isIdom_of_least hr hk hkd habove hm hmk hleast (hlower _ hd0 hdi)

theorem close_get_of_ne (h : i ≠ v) : (close semi idom i).get v = idom.get v := by
  rw [close]
  split
  · rfl
  · rw [vector_get_set, if_neg h]

theorem isIdom_foldl_close (hS : S.DepthFirst) (hr : r.val = 0) (vs : List (Fin n))
    (hsorted : vs.Pairwise (· < ·)) (hpos : ∀ v ∈ vs, v.val ≠ 0)
    (hsemi : ∀ v : Fin n, v.val ≠ 0 → S.IsSemidominator (semi.get v) v)
    (hprov : ∀ v ∈ vs, S.Provisional v (idom.get v))
    (hdone : ∀ v : Fin n, v.val ≠ 0 → v ∉ vs → IsIdom S.Edge r (idom.get v) v) :
    ∀ v : Fin n, v.val ≠ 0 → IsIdom S.Edge r ((vs.foldl (close semi) idom).get v) v := by
  induction vs generalizing idom with
  | nil => exact fun v hv => hdone v hv List.not_mem_nil
  | cons i vs ih =>
      obtain ⟨hi, hsorted⟩ := List.pairwise_cons.mp hsorted
      have hi0 := hpos i List.mem_cons_self
      refine ih hsorted (fun v hv => hpos v (List.mem_cons_of_mem _ hv)) ?_ ?_
      · intro v hv
        rw [close_get_of_ne (hi v hv).ne]
        exact hprov v (List.mem_cons_of_mem _ hv)
      · intro v hv hnot
        by_cases hiv : i = v
        · subst hiv
          refine isIdom_close hS hr hi0 (hsemi i hi0) (hprov i List.mem_cons_self) ?_
          intro u hu hui
          refine hdone u hu fun hmem => ?_
          rcases List.mem_cons.mp hmem with rfl | hmem
          · exact lt_irrefl _ hui
          · exact (hi u hmem).asymm hui
        · rw [close_get_of_ne hiv]
          exact hdone v hv (by simp [Ne.symm hiv, hnot])

theorem foldl_close_le (semi : Vector (Fin n) n) (vs : List (Fin n))
    (hidom : ∀ v, (idom.get v).val ≤ v.val - 1) (v : Fin n) :
    ((vs.foldl (close semi) idom).get v).val ≤ v.val - 1 := by
  induction vs generalizing idom with
  | nil => exact hidom v
  | cons i vs ih =>
      refine ih fun x => ?_
      rw [close]
      split
      · exact hidom x
      · rw [vector_get_set]
        split
        · rename_i hix
          have h := hidom (idom.get i)
          have hi := hidom i
          rw [← hix]
          omega
        · exact hidom x

end Sweep

namespace Spanning

theorem solve_cases (hS : S.Descends) (h : 0 < n) :
    (∃ i : Fin n, i.val ≠ 0 ∧ (∀ c, S.Leap c i → i ≤ c) ∧
      S.solve h = .error (.violation (.semidominatorNotAbove (S.block.get i) i i))) ∨
    ∃ s, S.solve h = .ok (((List.finRange n).drop 1).foldl (Sweep.close s.forest.semi) s.idom,
      s.forest.semi) ∧ Sweep.Swept S 1 s := by
  have hstart : Sweep.Swept S (n - 1 + 1) (.start ⟨0, h⟩) := by
    rw [Nat.sub_add_cancel h]
    exact Sweep.swept_start S rfl
  rcases hstart.down hS (n - 1) (by omega) with ⟨i, hi, hleast, hdown⟩ | ⟨s, hdown, hs⟩
  · refine .inl ⟨i, hi, hleast, ?_⟩
    rw [solve, hdown]
    rfl
  · refine .inr ⟨s, ?_, hs⟩
    rw [solve, hdown]
    rfl

theorem solve_outcome (hS : S.Descends) (h : 0 < n) :
    (∃ i : Fin n, i.val ≠ 0 ∧ (∀ c, S.Leap c i → i ≤ c) ∧
      S.solve h = .error (.violation (.semidominatorNotAbove (S.block.get i) i i))) ∨
    ∃ idom semi, S.solve h = .ok (idom, semi) ∧ ∀ v : Fin n, v.val ≠ 0 →
      idom.get v < v ∧ semi.get v < v ∧ S.Leap (semi.get v) v := by
  refine (solve_cases hS h).imp_right ?_
  rintro ⟨s, hsolve, hs⟩
  refine ⟨_, _, hsolve, fun v hv => ?_⟩
  have hpos : 1 ≤ v.val := Nat.one_le_iff_ne_zero.mpr hv
  have hle := Sweep.foldl_close_le s.forest.semi ((List.finRange n).drop 1) hs.below v
  exact ⟨Fin.lt_def.mpr (by omega), hs.lt v hpos, (hs.least v hpos).1⟩

theorem solve_spec (hS : S.DepthFirst) (h : 0 < n) :
    ∃ idom semi, S.solve h = .ok (idom, semi) ∧ ∀ v : Fin n, v.val ≠ 0 →
      IsIdom S.Edge ⟨0, h⟩ (idom.get v) v ∧ S.IsSemidominator (semi.get v) v := by
  rcases solve_cases hS.descends h with ⟨i, hi, hleast, -⟩ | ⟨s, hsolve, hs⟩
  · exact absurd (hleast _ (.edge (hS.parent_edge i hi))) (not_le.mpr (hS.descends i hi))
  have hsemi : ∀ v : Fin n, v.val ≠ 0 → S.IsSemidominator (s.forest.semi.get v) v :=
    fun v hv => hS.isSemidominator_iff.mpr (hs.least v (Nat.one_le_iff_ne_zero.mpr hv))
  have hmem : ∀ v : Fin n, v ∈ (List.finRange n).drop 1 ↔ v.val ≠ 0 := fun v =>
    mem_drop_finRange.trans Nat.one_le_iff_ne_zero
  have hidom := Sweep.isIdom_foldl_close (r := ⟨0, h⟩) hS rfl ((List.finRange n).drop 1)
    (List.pairwise_lt_finRange n).drop (fun v hv => (hmem v).mp hv) hsemi
    (fun v hv => hs.provisional hS ((hmem v).mp hv))
    (fun v hv hnot => absurd ((hmem v).mpr hv) hnot)
  exact ⟨_, _, hsolve, fun v hv => ⟨hidom v hv, hsemi v hv⟩⟩

end Spanning

end ControlFlow

import ControlFlow.Fixpoint
import ControlFlow.Proofs.Dominance
import Mathlib.Data.Fintype.Card
import Mathlib.Order.Fin.Basic

namespace ControlFlow.DomTable

open Relation

variable {n : Nat} {preds : Vector (List (Fin n)) n} {root c e u v : Fin n} {j k m : Nat}
  {w : List (Fin n)}

section Upto

variable {α : Type} {R : α → α → Prop} {P : Nat → α → Prop} {a b : α} {p : List α}

inductive Upto (R : α → α → Prop) (P : Nat → α → Prop) : Nat → α → Prop
  | base {k : Nat} {v : α} : P k v → Upto R P k v
  | step {k : Nat} {u v : α} : Upto R P k u → R u v → Upto R P (k + 1) v

theorem Upto.mono (hP : ∀ {j k v}, P j v → j ≤ k → P k v) (h : Upto R P j b) (hjk : j ≤ k) :
    Upto R P k b := by
  induction h generalizing k with
  | base h => exact .base (hP h hjk)
  | step _ huv ih =>
      obtain ⟨m, rfl⟩ := Nat.exists_eq_add_of_le hjk
      rw [Nat.add_right_comm]
      exact .step (ih (Nat.le_add_right _ _)) huv

theorem Upto.along (hP : ∀ {j k v}, P j v → j ≤ k → P k v) (h : Upto R P k a)
    (hp : Route R a b p) (hlen : p.length ≤ m + 1) : Upto R P (k + m) b := by
  induction hp generalizing k m with
  | here a => exact h.mono hP (Nat.le_add_right _ _)
  | step hxy hyz ih =>
      have hpos := List.length_pos_of_mem hyz.head_mem
      rw [List.length_cons] at hlen
      obtain ⟨m, rfl⟩ := Nat.exists_eq_succ_of_ne_zero (n := m) (by omega)
      rw [Nat.add_succ, ← Nat.succ_add]
      exact ih (.step h hxy) (by omega)

theorem Upto.exists_base (h : Upto R P k b) : ∃ j a, P j a ∧ ReflTransGen R a b := by
  induction h with
  | base h => exact ⟨_, _, h, .refl⟩
  | step _ huv ih =>
      obtain ⟨j, a, ha, hau⟩ := ih
      exact ⟨j, a, ha, hau.tail huv⟩

end Upto

theorem exists_short_route {R : Fin n → Fin n → Prop} (h : ReflTransGen R u v) :
    ∃ w, Route R u v w ∧ w.length ≤ n - 1 + 1 := by
  obtain ⟨w, hw⟩ := exists_route_iff.mpr h
  obtain ⟨w', hw', -, hnodup⟩ := hw.exists_nodup
  have hlen : w'.length ≤ n := by simpa using hnodup.length_le_card
  have hpos : 0 < n := u.pos
  exact ⟨w', hw', by omega⟩

def Edge (preds : Vector (List (Fin n)) n) (u v : Fin n) : Prop :=
  u ∈ preds.get v

def Within (preds : Vector (List (Fin n)) n) (root : Fin n) : Nat → Fin n → Prop :=
  Upto (Edge preds) fun _ v => v = root

theorem Within.mono (h : Within preds root j v) (hjk : j ≤ k) : Within preds root k v :=
  Upto.mono (fun h _ => h) h hjk

theorem within_of_reaches (h : ReflTransGen (Edge preds) root v) :
    Within preds root (n - 1) v := by
  obtain ⟨w, hw, hlen⟩ := exists_short_route h
  rw [← Nat.zero_add (n - 1)]
  exact Upto.along (fun h _ => h) (.base rfl) hw hlen

theorem Within.reaches (h : Within preds root k v) : ReflTransGen (Edge preds) root v := by
  obtain ⟨_, _, rfl, hreach⟩ := Upto.exists_base h
  exact hreach

/-- Some way of at most `k` edges comes to `v` from a vertex before `e` and has kept off `e` since. -/
def Evades (preds : Vector (List (Fin n)) n) (root e : Fin n) : Nat → Fin n → Prop :=
  Upto (fun u v => Edge preds u v ∧ v ≠ e) fun k v => Within preds root k v ∧ v < e

def Guards (preds : Vector (List (Fin n)) n) (root e v : Fin n) : Prop :=
  ∀ k, ¬Evades preds root e k v

namespace Evades

theorem mono (h : Evades preds root e j v) (hjk : j ≤ k) : Evades preds root e k v :=
  Upto.mono (fun h hjk => ⟨h.1.mono hjk, h.2⟩) h hjk

theorem ne (h : Evades preds root e k v) : v ≠ e := by
  cases h with
  | base h => exact h.2.ne
  | step _ huv => exact huv.2

theorem within (h : Evades preds root e k v) : Within preds root k v := by
  induction h with
  | base h => exact h.1
  | step _ huv ih => exact .step ih huv.1

theorem until_met (h : Evades preds root e k v) (hec : e < c) (hc : ¬Evades preds root c k v) :
    Evades preds root e k c := by
  induction h with
  | base h => exact absurd (.base ⟨h.1, h.2.trans hec⟩) hc
  | @step k u v hu huv ih =>
      by_cases hvc : v = c
      · exact hvc ▸ .step hu huv
      · exact (ih fun h => hc (.step h ⟨huv.1, hvc⟩)).mono (Nat.le_succ k)

theorem bounded (h : Evades preds root e k v) : Evades preds root e (n - 1 + (n - 1)) v := by
  obtain ⟨_, u, ⟨hu, hlt⟩, huv⟩ := Upto.exists_base h
  obtain ⟨w, hw, hlen⟩ := exists_short_route huv
  exact Upto.along (fun h hjk => ⟨h.1.mono hjk, h.2⟩)
    (.base ⟨within_of_reaches hu.reaches, hlt⟩) hw hlen

end Evades

namespace Guards

theorem self : Guards preds root v v :=
  fun _ h => h.ne rfl

theorem of_edge (h : Guards preds root e v) (huv : Edge preds u v) (hne : v ≠ e) :
    Guards preds root e u :=
  fun k hu => h (k + 1) (.step hu ⟨huv, hne⟩)

theorem le (h : Guards preds root e v) (hv : ReflTransGen (Edge preds) root v) : e ≤ v :=
  not_lt.mp fun hlt => h (n - 1) (.base ⟨within_of_reaches hv, hlt⟩)

end Guards

end ControlFlow.DomTable

import ControlFlow.Proofs.Semidominator.Uncompressed
import ControlFlow.Proofs.Unmirrored.Fixpoint
import Mathlib

namespace ControlFlow.View

open Sweep.Moment

variable {g g' : View} {root : BlockId} {N : Numbering}

/-- The sweep is a run of calls, and any vertex may be compressed before each of them. An evaluation
then gives back a vertex that is not linked, and finds the least semidominator on the way from one
that is up to the first that is not. A compression comes to its end. And the run in which nothing is
ever compressed makes the same calls, on a forest with just the links of the tree, and finds the
same semidominators. -/
theorem evaluations_exact (hnum : g'.number root = .ok N) (hpos : 0 < N.preorder.size) :
    (∀ h : 1 < N.preorder.size,
      Ends (turn SemiForest.eval (N.spanning g)) (first (N.spanning g) ⟨0, hpos⟩ h)
        (Sweep.down (N.spanning g) (N.preorder.size - 1) (by omega) (.start ⟨0, hpos⟩))) ∧
    (∀ k a, After SemiForest.eval (N.spanning g) ⟨0, hpos⟩ k a →
      Strays (N.spanning g) ⟨0, hpos⟩ k a) ∧
    ∀ k a, Strays (N.spanning g) ⟨0, hpos⟩ k a →
      (∀ v, a.forest.Finds (N.spanning g) v (a.forest.eval v).2) ∧
      (∀ x, ∃ noted, Ends a.forest.climb (x, []) noted ∧
        Ends SemiForest.raise (a.forest, noted) (a.forest.compress x)) ∧
      ∃ b, After SemiForest.survey (N.spanning g) ⟨0, hpos⟩ k b ∧
        b.vertex = a.vertex ∧ b.linked = a.linked ∧ b.rest = a.rest ∧
        (∀ v, b.forest.up.get v =
          if a.forest.up.get v = none then none else (N.spanning g).up v) ∧
        b.forest.semi = a.forest.semi ∧
        ∀ v, a.forest.semi.get (a.forest.eval v).2 = b.forest.semi.get (b.forest.survey v).2 := by
  have hN := finished_of_number hnum (Array.isEmpty_eq_false_iff.mpr (Array.size_pos_iff.mp hpos))
  have hS : (N.spanning g).Descends := Numbering.Finished.spanning_descends hN
  refine ⟨fun h => ends_first h, fun k a h => h.strays, fun k a h => ?_⟩
  obtain ⟨b, hb, -, hvertex, hlinked, hrest, hsemi, -, htracks, hbare⟩ := h.exists_beside hS
  exact ⟨htracks.finds hS, SemiForest.ends_compress htracks.falls, b, hb, hvertex, hlinked, hrest,
    hbare.up_eq_of_tracks htracks, hsemi, htracks.semi_eval_eq hbare hS hsemi⟩

def fan : View :=
  .ofEdges 4 [(0, 1), (1, 2), (2, 3)] [(0, 1), (0, 2), (0, 3)]

def fanNumbering : Numbering where
  root := 0
  pres := #[some 0, some 1, some 2, some 3]
  posts := #[some 3, some 2, some 1, some 0]
  parents := #[none, some 0, some 1, some 2]
  preorder := #[0, 1, 2, 3]
  postorder := #[3, 2, 1, 0]
  crossings := #[⟨0, 1, .tree⟩, ⟨1, 2, .tree⟩, ⟨2, 3, .tree⟩]

theorem number_fan : fan.number 0 = .ok fanNumbering := by
  cbv

theorem exists_skipped_fan :
    ∃ k a x y, Strays (fanNumbering.spanning fan) ⟨0, by decide⟩ k a ∧
      a.forest.up.get x = some y ∧ (fanNumbering.spanning fan).up x ≠ some y := by
  have hfirst : Strays (fanNumbering.spanning fan) ⟨0, by decide⟩ 0 (first _ _ (by decide)) :=
    .first (by decide)
  have hlinked := (((((hfirst.turn rfl).turn rfl).turn rfl).turn rfl).turn rfl).turn rfl
  exact ⟨_, _, ⟨3, by decide⟩, ⟨1, by decide⟩, hlinked.compress ⟨3, by decide⟩,
    by decide +kernel, by decide⟩

theorem evaluations_exact_fan :
    ∃ N, fan.number 0 = .ok N ∧ ∃ hpos : 0 < N.preorder.size,
    (∃ k a x y, Strays (N.spanning fan) ⟨0, hpos⟩ k a ∧
      a.forest.up.get x = some y ∧ (N.spanning fan).up x ≠ some y) ∧
    (∀ h : 1 < N.preorder.size,
      Ends (turn SemiForest.eval (N.spanning fan)) (first (N.spanning fan) ⟨0, hpos⟩ h)
        (Sweep.down (N.spanning fan) (N.preorder.size - 1) (by omega) (.start ⟨0, hpos⟩))) ∧
    (∀ k a, After SemiForest.eval (N.spanning fan) ⟨0, hpos⟩ k a →
      Strays (N.spanning fan) ⟨0, hpos⟩ k a) ∧
    ∀ k a, Strays (N.spanning fan) ⟨0, hpos⟩ k a →
      (∀ v, a.forest.Finds (N.spanning fan) v (a.forest.eval v).2) ∧
      (∀ x, ∃ noted, Ends a.forest.climb (x, []) noted ∧
        Ends SemiForest.raise (a.forest, noted) (a.forest.compress x)) ∧
      ∃ b, After SemiForest.survey (N.spanning fan) ⟨0, hpos⟩ k b ∧
        b.vertex = a.vertex ∧ b.linked = a.linked ∧ b.rest = a.rest ∧
        (∀ v, b.forest.up.get v =
          if a.forest.up.get v = none then none else (N.spanning fan).up v) ∧
        b.forest.semi = a.forest.semi ∧
        ∀ v, a.forest.semi.get (a.forest.eval v).2 = b.forest.semi.get (b.forest.survey v).2 := by
  have hpos : 0 < fanNumbering.preorder.size := by decide
  exact ⟨fanNumbering, number_fan, hpos, exists_skipped_fan, evaluations_exact number_fan hpos⟩

end ControlFlow.View

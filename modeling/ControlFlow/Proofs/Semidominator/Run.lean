import ControlFlow.Proofs.Semidominator.Sweep

namespace ControlFlow.Sweep

variable {n t : Nat} {S : Spanning n} {F : SemiForest n} {root a v x : Fin n} {s : Sweep n}

inductive Stands (S : Spanning n) (root : Fin n) : Nat → Sweep n → Prop
  | start : Stands S root n (start root)
  | visit {i : Fin n} {s s' : Sweep n} :
      Stands S root (i.val + 1) s → i.val ≠ 0 → visit S i s = .ok s' → Stands S root i.val s'

inductive Evaluates (S : Spanning n) (root : Fin n) : Nat → SemiForest n → Fin n → Prop
  | pred {i v : Fin n} {s : Sweep n} (us vs : List (Fin n)) :
      Stands S root (i.val + 1) s → i.val ≠ 0 → S.preds.get i = us ++ v :: vs →
      Evaluates S root (i.val + 1) (us.foldl (·.lower i) s.forest) v
  | waiting {i v : Fin n} {s : Sweep n} (us vs : List (Fin n)) :
      Stands S root (i.val + 1) s → i.val ≠ 0 → (fill S i s).forest.semi.get i < i →
      ((fill S i s).bucket.get (S.parent.get i)).reverse = us ++ v :: vs →
      Evaluates S root i.val
        (us.foldl (resolve (S.parent.get i)) (hang (S.parent.get i) i (fill S i s))).forest v

variable (hS : S.Descends) (hr : root.val = 0)

include hS hr

theorem Stands.swept (h : Stands S root t s) : Swept S t s := by
  induction h with
  | start => exact swept_start S hr
  | visit _ hi hvisit ih =>
      rcases ih.visit hS hi with ⟨herror, -⟩ | ⟨s', hok, hs'⟩
      · cases herror.symm.trans hvisit
      · cases hok.symm.trans hvisit
        exact hs'

theorem Evaluates.tracks (h : Evaluates S root t F v) : F.Tracks S t := by
  cases h with
  | pred us vs hs _ hpreds =>
      refine ((hs.swept hS hr).lowered.foldl hS us fun u hu => ?_).1.tracks
      rw [Spanning.Edge, hpreds]
      exact List.mem_append_left _ hu
  | waiting us vs hs hi hk hwaiting =>
      refine (((hs.swept hS hr).filled hS hk).foldl_hang hS hi rfl us fun u hu => ?_).1
      rw [← List.mem_reverse, hwaiting]
      exact List.mem_append_left _ hu

theorem Evaluates.up_lt (h : Evaluates S root t F v) (hx : F.up.get x = some a) : a < x :=
  ((h.tracks hS hr).points hx).lt

end ControlFlow.Sweep

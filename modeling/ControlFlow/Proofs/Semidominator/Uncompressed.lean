import ControlFlow.Proofs.Semidominator.Calls
import Mathlib.Data.List.MinMax

namespace ControlFlow

variable {n t : Nat} {S : Spanning n} {F F' : SemiForest n} {i u v x y : Fin n}

def Spanning.OnWay (S : Spanning n) (F : SemiForest n) (v y : Fin n) : Prop :=
  Above S.up y v ∧ ∀ z, Above S.up y z → Above S.up z v → F.up.get z ≠ none

namespace SemiForest

def way (F : SemiForest n) (v : Fin n) : List (Fin n) :=
  match F.up.get v with
  | none => []
  | some a => v :: if a < v then F.way a else []
termination_by v.val

def survey (F : SemiForest n) (v : Fin n) : SemiForest n × Fin n :=
  (F, ((F.way v).argmin F.semi.get).getD v)

structure Finds (F : SemiForest n) (S : Spanning n) (v u : Fin n) : Prop where
  self : F.up.get v = none → u = v
  on_way : F.up.get v ≠ none → S.OnWay F v u
  least : ∀ y, S.OnWay F v y → F.semi.get u ≤ F.semi.get y

theorem Tracks.up_ne_none_iff (hF : F.Tracks S t) : F.up.get x ≠ none ↔ t ≤ x.val :=
  (not_congr hF.up_eq_none_iff).trans Nat.not_lt

theorem Tracks.onWay_iff (hF : F.Tracks S t) (hS : S.Descends) :
    S.OnWay F v y ↔ Above S.up y v ∧ t ≤ y.val := by
  refine and_congr_right fun hy => ⟨fun h => ?_, fun hty z hz _ => ?_⟩
  · exact hF.up_ne_none_iff.mp (h y (.refl y) hy)
  · exact hF.up_ne_none_iff.mpr (hty.trans (hS.le hz))

theorem Tracks.finds (hF : F.Tracks S t) (hS : S.Descends) (v : Fin n) :
    F.Finds S v (F.eval v).2 := by
  have he := hF.eval hS v
  refine ⟨fun hv => he.unlinked (hF.up_eq_none_iff.mp hv), fun hv => ?_, fun y hy => ?_⟩
  · have hu := he.linked (hF.up_ne_none_iff.mp hv)
    exact (hF.onWay_iff hS).mpr ⟨hu.above, hu.le⟩
  · obtain ⟨hyv, hty⟩ := (hF.onWay_iff hS).mp hy
    exact (he.linked (hty.trans (hS.le hyv))).least y hyv hty

theorem Tracks.lower (hF : F.Tracks S (i.val + 1)) (hS : S.Descends) (v : Fin n) :
    (F.lower i v).Tracks S (i.val + 1) := by
  rcases h : F.eval v with ⟨F', u⟩
  have he := (hF.eval hS v).tracks
  rw [h] at he
  simp only [SemiForest.lower, h]
  split
  · exact he.setSemi _
  · exact he

structure Bare (F : SemiForest n) (S : Spanning n) (t : Nat) : Prop where
  pos : 0 < t
  up_eq : ∀ x, F.up.get x = if t ≤ x.val then S.up x else none

theorem Bare.up_eq_of_tracks (hF' : F'.Bare S t) (hF : F.Tracks S t) (v : Fin n) :
    F'.up.get v = if F.up.get v = none then none else S.up v := by
  simp only [hF'.up_eq, hF.up_eq_none_iff, ← Nat.not_le, ite_not]

theorem Bare.mem_way_iff (hF : F.Bare S t) (hS : S.Descends) :
    y ∈ F.way v ↔ Above S.up y v ∧ t ≤ y.val := by
  induction hk : v.val using Nat.strongRecOn generalizing v with
  | ind k ih =>
      rw [way, hF.up_eq]
      by_cases hv : t ≤ v.val
      · have hv0 : v.val ≠ 0 := (hF.pos.trans_le hv).ne'
        have hup : S.up v = some (S.parent.get v) := Spanning.up_eq_some_iff.mpr ⟨hv0, rfl⟩
        have hlt := hS v hv0
        simp only [hv, hup, hlt, if_true, List.mem_cons]
        rw [ih _ (hk ▸ hlt) rfl, Above.iff_of_up hup, or_and_right]
        exact or_congr_left ⟨fun h => ⟨h, h ▸ hv⟩, And.left⟩
      · simp only [hv, if_false, List.not_mem_nil, false_iff, not_and]
        exact fun hy hty => hv (hty.trans (hS.le hy))

theorem Bare.survey_of_lt (hF : F.Bare S t) (hv : v.val < t) : (F.survey v).2 = v := by
  have hway : F.way v = [] := by
    rw [way, hF.up_eq, if_neg (Nat.not_le.mpr hv)]
  rw [survey, hway]
  rfl

theorem Bare.survey (hF : F.Bare S t) (hS : S.Descends) (hv : t ≤ v.val) :
    F.LeastFrom S t v (F.survey v).2 := by
  have hmem : v ∈ F.way v := (hF.mem_way_iff hS).mpr ⟨.refl v, hv⟩
  cases hu : (F.way v).argmin F.semi.get with
  | none =>
      rw [List.argmin_eq_none] at hu
      rw [hu] at hmem
      cases hmem
  | some u =>
      obtain ⟨hle, htu⟩ := (hF.mem_way_iff hS).mp (List.argmin_mem hu)
      have heq : (F.survey v).2 = u := by rw [SemiForest.survey, hu, Option.getD_some]
      rw [heq]
      refine ⟨hle, htu, fun y hy hty => ?_⟩
      exact List.le_of_mem_argmin ((hF.mem_way_iff hS).mpr ⟨hy, hty⟩) hu

theorem Tracks.semi_eval_eq (hF : F.Tracks S t) (hF' : F'.Bare S t) (hS : S.Descends)
    (hsemi : F'.semi = F.semi) (v : Fin n) :
    F.semi.get (F.eval v).2 = F'.semi.get (F'.survey v).2 := by
  have he := hF.eval hS v
  rw [hsemi]
  rcases Nat.lt_or_ge v.val t with hv | hv
  · rw [he.unlinked hv, hF'.survey_of_lt hv]
  · have hu := he.linked hv
    have hw : F.LeastFrom S t v (F'.survey v).2 :=
      (hF'.survey hS hv).congr fun _ _ => by rw [hsemi]
    exact le_antisymm (hu.least _ hw.above hw.le) (hw.least _ hu.above hu.le)

theorem Bare.link (hF : F.Bare S (i.val + 1)) (hi : i.val ≠ 0) :
    (F.link (S.parent.get i) i).Bare S i.val where
  pos := Nat.pos_of_ne_zero hi
  up_eq x := by
    simp only [SemiForest.link, vector_get_set, hF.up_eq]
    by_cases hix : i = x
    · subst hix
      rw [if_pos rfl, if_pos le_rfl, Spanning.up_eq_some_iff.mpr ⟨hi, rfl⟩]
    · have hne : i.val ≠ x.val := fun e => hix (Fin.ext e)
      rw [if_neg hix]
      exact if_congr (by omega) rfl rfl

theorem up_lowerBy {E : Evaluation n} : (F.lowerBy E i v).up = (E F v).1.up := by
  simp only [SemiForest.lowerBy]
  split <;> rfl

theorem semi_lowerBy {E : Evaluation n} (h : (E F v).1.semi = F.semi) :
    (F.lowerBy E i v).semi =
      if F.semi.get (E F v).2 < F.semi.get i then
        F.semi.set i (F.semi.get (E F v).2) i.isLt
      else F.semi := by
  rcases he : E F v with ⟨F', u⟩
  simp only [he] at h
  simp only [SemiForest.lowerBy, he, h]
  split
  · rfl
  · exact h

end SemiForest

namespace Sweep

open SemiForest

variable {root : Fin n} {s s' : Sweep n}

structure Alike (S : Spanning n) (t : Nat) (s s' : Sweep n) : Prop where
  semi_eq : s'.forest.semi = s.forest.semi
  bucket_eq : s'.bucket = s.bucket
  tracks : s.forest.Tracks S t
  bare : s'.forest.Bare S t

namespace Alike

variable (hS : S.Descends)

include hS

theorem compress (h : Alike S t s s') (x : Fin n) :
    Alike S t { s with forest := s.forest.compress x } s' where
  semi_eq := h.semi_eq.trans (h.tracks.compress hS x).semi.symm
  bucket_eq := h.bucket_eq
  tracks := (h.tracks.compress hS x).tracks
  bare := h.bare

theorem lower (h : Alike S (i.val + 1) s s') (v : Fin n) :
    Alike S (i.val + 1) { s with forest := s.forest.lowerBy eval i v }
      { s' with forest := s'.forest.lowerBy survey i v } where
  semi_eq := by
    have hvalue := h.tracks.semi_eval_eq h.bare hS h.semi_eq v
    rw [semi_lowerBy (h.tracks.eval hS v).semi, semi_lowerBy rfl, ← hvalue, h.semi_eq]
  bucket_eq := h.bucket_eq
  tracks := h.tracks.lower hS v
  bare := ⟨h.bare.pos, fun x => by rw [up_lowerBy]; exact h.bare.up_eq x⟩

theorem link (h : Alike S (i.val + 1) s s') (hi : i.val ≠ 0)
    {bucket bucket' : Vector (List (Fin n)) n} (hbucket : bucket' = bucket) :
    Alike S i.val ⟨s.forest.link (S.parent.get i) i, bucket, s.idom⟩
      ⟨s'.forest.link (S.parent.get i) i, bucket', s'.idom⟩ where
  semi_eq := h.semi_eq
  bucket_eq := hbucket
  tracks := h.tracks.link hS hi
  bare := h.bare.link hi

theorem resolve (h : Alike S t s s') (p v : Fin n) :
    Alike S t (resolveBy eval p s v) (resolveBy survey p s' v) where
  semi_eq := h.semi_eq.trans (h.tracks.eval hS v).semi.symm
  bucket_eq := h.bucket_eq
  tracks := (h.tracks.eval hS v).tracks
  bare := h.bare

end Alike

namespace Moment

variable {a a' b : Moment n} {k : Nat}

def forest (a : Moment n) : SemiForest n :=
  a.sweep.forest

def horizon (a : Moment n) : Nat :=
  if a.linked then a.vertex.val else a.vertex.val + 1

structure Beside (S : Spanning n) (a b : Moment n) : Prop where
  vertex_ne : a.vertex.val ≠ 0
  vertex_eq : b.vertex = a.vertex
  linked_eq : b.linked = a.linked
  rest_eq : b.rest = a.rest
  alike : Alike S a.horizon a.sweep b.sweep

theorem beside_first (h : 1 < n) : Beside S (first S root h) (first S root h) := by
  have hhorizon : (first S root h).horizon = n := Nat.sub_add_cancel (Nat.le_of_lt h)
  refine ⟨Nat.sub_ne_zero_of_lt h, rfl, rfl, rfl, rfl, rfl, ?_, ?_, fun x => ?_⟩
  · rw [hhorizon]
    exact tracks_discrete S
  · rw [hhorizon]
    exact Nat.zero_lt_of_lt h
  · rw [hhorizon, if_neg (Nat.not_le.mpr x.isLt)]
    simp [first, arrive, start, discrete]

theorem Beside.compress (h : Beside S a b) (hS : S.Descends) (x : Fin n) :
    Beside S (a.compress x) b :=
  ⟨h.vertex_ne, h.vertex_eq, h.linked_eq, h.rest_eq, h.alike.compress hS x⟩

theorem Beside.turn (h : Beside S a b) (hS : S.Descends) (ha : a.turn eval S = .inl a') :
    ∃ b', b.turn survey S = .inl b' ∧ Beside S a' b' := by
  obtain ⟨i, linked, rest, s⟩ := a
  obtain ⟨j, linked', rest', s'⟩ := b
  obtain ⟨hi, hj, hlinked, hrest, halike⟩ := h
  cases hj
  cases hlinked
  cases hrest
  cases linked with
  | false =>
      cases rest with
      | cons v rest =>
          cases ha
          exact ⟨_, rfl, hi, rfl, rfl, rfl, halike.lower hS v⟩
      | nil =>
          simp only [Moment.turn] at ha ⊢
          rw [halike.semi_eq, halike.bucket_eq]
          split at ha
          · rename_i hk
            cases ha
            exact ⟨_, if_pos hk, hi, rfl, rfl, rfl, halike.link hS hi rfl⟩
          · cases ha
  | true =>
      cases rest with
      | cons v rest =>
          cases ha
          exact ⟨_, rfl, hi, rfl, rfl, rfl, halike.resolve hS _ v⟩
      | nil =>
          simp only [Moment.turn] at ha ⊢
          split at ha
          · rename_i hlt
            cases ha
            refine ⟨_, if_pos hlt, Nat.sub_ne_zero_of_lt hlt, rfl, rfl, rfl, ?_⟩
            change Alike S (i.val - 1 + 1) s s'
            rw [Nat.sub_add_cancel hlt.le]
            exact halike
          · cases ha

theorem Strays.exists_beside (h : Strays S root k a) (hS : S.Descends) :
    ∃ b, After survey S root k b ∧ Beside S a b := by
  induction h with
  | first h => exact ⟨_, .first h, beside_first h⟩
  | turn _ hturn ih =>
      obtain ⟨b, hb, hbeside⟩ := ih
      obtain ⟨b', hturn', hbeside'⟩ := hbeside.turn hS hturn
      exact ⟨b', .turn hb hturn', hbeside'⟩
  | compress x _ ih =>
      obtain ⟨b, hb, hbeside⟩ := ih
      exact ⟨b, hb, hbeside.compress hS x⟩

end Moment

end Sweep

end ControlFlow

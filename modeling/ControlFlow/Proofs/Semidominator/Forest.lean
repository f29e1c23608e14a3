import ControlFlow.Proofs.Semidominator.Detour
import ControlFlow.Proofs.Tables

namespace ControlFlow

namespace SemiForest

variable {n t : Nat} {F : SemiForest n} {S : Spanning n} {a b i u v x : Fin n}

structure LeastFrom (F : SemiForest n) (S : Spanning n) (t : Nat) (x u : Fin n) : Prop where
  above : Above S.up u x
  le : t ≤ u.val
  least : ∀ y, Above S.up y x → t ≤ y.val → F.semi.get u ≤ F.semi.get y

/-- `x` points at `a`: all vertices skipped are linked, and the label speaks for them. -/
structure Points (F : SemiForest n) (S : Spanning n) (t : Nat) (x a : Fin n) : Prop where
  above : Above S.up a x
  lt : a < x
  linked : ∀ y, Above S.up y x → a < y → t ≤ y.val
  label : F.LeastFrom S (a.val + 1) x (F.label.get x)

structure Tracks (F : SemiForest n) (S : Spanning n) (t : Nat) : Prop where
  unlinked : ∀ x, x.val < t → F.up.get x = none ∧ F.label.get x = x
  linked : ∀ x, t ≤ x.val → ∃ a, F.up.get x = some a ∧ F.Points S t x a

theorem tracks_discrete (S : Spanning n) : (discrete n).Tracks S n where
  unlinked x _ := by simp [discrete]
  linked x hx := absurd x.isLt (Nat.not_lt.mpr hx)

namespace Tracks

variable (hF : F.Tracks S t)

include hF

theorem le_of_up (hx : F.up.get x = some a) : t ≤ x.val := by
  by_contra h
  rw [(hF.unlinked x (Nat.not_le.mp h)).1] at hx
  cases hx

theorem points (hx : F.up.get x = some a) : F.Points S t x a := by
  obtain ⟨b, hb, h⟩ := hF.linked x (hF.le_of_up hx)
  rw [hx] at hb
  cases hb
  exact h

theorem up_eq_none_iff : F.up.get x = none ↔ x.val < t := by
  constructor
  · intro h
    by_contra hx
    obtain ⟨a, ha, _⟩ := hF.linked x (Nat.not_lt.mp hx)
    rw [h] at ha
    cases ha
  · exact fun h => (hF.unlinked x h).1

end Tracks

theorem LeastFrom.congr {F' : SemiForest n} (h : F.LeastFrom S t x u)
    (hsemi : ∀ y : Fin n, t ≤ y.val → F'.semi.get y = F.semi.get y) : F'.LeastFrom S t x u where
  above := h.above
  le := h.le
  least y hy hty := by
    rw [hsemi u h.le, hsemi y hty]
    exact h.least y hy hty

theorem LeastFrom.lower_label {F' : SemiForest n} (hx : F.Points S t x a) (ha : F.Points S t a b)
    (hS : S.Descends) (hsemi : F'.semi = F.semi) :
    F'.LeastFrom S (b.val + 1) x
      (if F.semi.get (F.label.get a) < F.semi.get (F.label.get x) then F.label.get a
        else F.label.get x) := by
  have hba : b.val < a.val := ha.lt
  have hsplit : ∀ y, Above S.up y x → b.val + 1 ≤ y.val →
      F.semi.get (F.label.get x) ≤ F.semi.get y ∨ F.semi.get (F.label.get a) ≤ F.semi.get y := by
    intro y hy hby
    rcases lt_or_ge a y with hay | hya
    · exact .inl (hx.label.least y hy hay)
    · exact .inr (ha.label.least y (hS.above_of_le hy hx.above hya) hby)
  split
  · rename_i hlt
    refine ⟨ha.label.above.trans hx.above, ha.label.le, ?_⟩
    intro y hy hby
    rw [hsemi]
    rcases hsplit y hy hby with h | h
    · exact hlt.le.trans h
    · exact h
  · rename_i hge
    refine ⟨hx.label.above, ?_, ?_⟩
    · have := hx.label.le
      omega
    · intro y hy hby
      rw [hsemi]
      rcases hsplit y hy hby with h | h
      · exact h
      · exact (not_lt.mp hge).trans h

@[simp] theorem semi_skip (F : SemiForest n) (x a : Fin n) : (F.skip x a).semi = F.semi := rfl

theorem up_skip (F : SemiForest n) (x a y : Fin n) :
    (F.skip x a).up.get y = if x = y then F.up.get a else F.up.get y := by
  simp only [skip, vector_get_set]

theorem label_skip (F : SemiForest n) (x a y : Fin n) :
    (F.skip x a).label.get y =
      if x = y then
        if F.semi.get (F.label.get a) < F.semi.get (F.label.get x) then F.label.get a
        else F.label.get x
      else F.label.get y := by
  simp only [skip]
  split
  · simp only [vector_get_set]
  · split
    · rename_i h
      rw [h]
    · rfl

theorem Tracks.skip (hF : F.Tracks S t) (hS : S.Descends) (hx : F.up.get x = some a)
    (ha : F.up.get a = some b) : (F.skip x a).Tracks S t := by
  have hpx := hF.points hx
  have hpa := hF.points ha
  constructor
  · intro y hy
    have hne : x ≠ y := fun e => Nat.not_lt.mpr (hF.le_of_up hx) (e ▸ hy)
    rw [up_skip, label_skip, if_neg hne, if_neg hne]
    exact hF.unlinked y hy
  · intro y hy
    rw [up_skip]
    by_cases hxy : x = y
    · subst hxy
      refine ⟨b, by rw [if_pos rfl, ha], hpa.above.trans hpx.above, hpa.lt.trans hpx.lt, ?_, ?_⟩
      · intro y hy hby
        rcases lt_or_ge a y with hay | hya
        · exact hpx.linked y hy hay
        · exact hpa.linked y (hS.above_of_le hy hpx.above hya) hby
      · rw [label_skip, if_pos rfl]
        exact .lower_label hpx hpa hS rfl
    · obtain ⟨c, hc, hp⟩ := hF.linked y hy
      refine ⟨c, by rw [if_neg hxy, hc], hp.above, hp.lt, hp.linked, ?_⟩
      rw [label_skip, if_neg hxy]
      exact hp.label.congr fun _ _ => rfl

structure Compressed (F F' : SemiForest n) (S : Spanning n) (t : Nat) (x : Fin n) : Prop where
  tracks : F'.Tracks S t
  semi : F'.semi = F.semi
  beyond : ∀ y, x < y → F'.up.get y = F.up.get y
  root : ∀ a, F'.up.get x = some a → a.val < t

theorem Tracks.compress (hF : F.Tracks S t) (hS : S.Descends) (x : Fin n) :
    Compressed F (F.compress x) S t x := by
  induction hk : x.val using Nat.strongRecOn generalizing x with
  | ind k ih =>
      rw [compress_eq]
      cases hx : F.up.get x with
      | none => exact ⟨hF, rfl, fun _ _ => rfl, by simp [hx]⟩
      | some a =>
          have hax := (hF.points hx).lt
          simp only [hax, if_true]
          cases ha : F.up.get a with
          | none =>
              refine ⟨hF, rfl, fun _ _ => rfl, ?_⟩
              intro c hc
              have hca : c = a := Option.some.inj (hc.symm.trans hx)
              exact hca ▸ hF.up_eq_none_iff.mp ha
          | some b =>
              have hc := ih a.val (hk ▸ hax) a rfl
              have hup : (F.compress a).up.get x = some a := (hc.beyond x hax).trans hx
              obtain ⟨r, hr, _⟩ := hc.tracks.linked a (hF.le_of_up ha)
              simp only [Option.isSome_some, if_true]
              refine ⟨hc.tracks.skip hS hup hr, hc.semi, ?_, ?_⟩
              · intro y hy
                rw [up_skip, if_neg hy.ne]
                exact hc.beyond y (hax.trans hy)
              · intro c hcr
                rw [up_skip, if_pos rfl] at hcr
                exact hc.root c hcr

structure Evaluated (F F' : SemiForest n) (S : Spanning n) (t : Nat) (v u : Fin n) : Prop where
  tracks : F'.Tracks S t
  semi : F'.semi = F.semi
  unlinked : v.val < t → u = v
  linked : t ≤ v.val → F.LeastFrom S t v u

theorem Tracks.eval (hF : F.Tracks S t) (hS : S.Descends) (v : Fin n) :
    Evaluated F (F.eval v).1 S t v (F.eval v).2 := by
  rw [SemiForest.eval]
  cases hv : F.up.get v with
  | none =>
      have hvt := hF.up_eq_none_iff.mp hv
      exact ⟨hF, rfl, fun _ => rfl, fun h => absurd hvt (Nat.not_lt.mpr h)⟩
  | some a =>
      have hc := hF.compress hS v
      have htv := hF.le_of_up hv
      refine ⟨hc.tracks, hc.semi, fun h => absurd h (Nat.not_lt.mpr htv), fun _ => ?_⟩
      obtain ⟨r, hr, hp⟩ := hc.tracks.linked v htv
      have hrt := hc.root r hr
      refine ⟨hp.label.above, hp.linked _ hp.label.above hp.label.le, ?_⟩
      intro y hy hty
      rw [← hc.semi]
      exact hp.label.least y hy (by omega)

theorem Tracks.link (hF : F.Tracks S (i.val + 1)) (hS : S.Descends) (hi : i.val ≠ 0) :
    (F.link (S.parent.get i) i).Tracks S i.val := by
  have hup : ∀ y, (F.link (S.parent.get i) i).up.get y =
      if i = y then some (S.parent.get i) else F.up.get y := by
    intro y
    simp only [SemiForest.link, vector_get_set]
  have hpi : S.up i = some (S.parent.get i) := Spanning.up_eq_some_iff.mpr ⟨hi, rfl⟩
  have honly : ∀ y, Above S.up y i → S.parent.get i < y → y = i := by
    intro y hy hlt
    by_contra hne
    exact absurd (hS.le (hy.up_of_ne hne hpi)) (not_le.mpr hlt)
  constructor
  · intro y hy
    have hne : i ≠ y := fun e => Nat.lt_irrefl _ (e ▸ hy)
    rw [hup, if_neg hne]
    exact hF.unlinked y (Nat.lt_succ_of_lt hy)
  · intro y hy
    rw [hup]
    by_cases hiy : i = y
    · subst hiy
      refine ⟨_, if_pos rfl, .of_up hpi (.refl _), hS i hi, ?_, ?_⟩
      · intro y hy hlt
        exact (congrArg Fin.val (honly y hy hlt)).ge
      · have hl : (F.link (S.parent.get i) i).label.get i = i :=
          (hF.unlinked i (Nat.lt_succ_self _)).2
        rw [hl]
        refine ⟨.refl i, hS i hi, fun y hy hlt => ?_⟩
        rw [honly y hy hlt]
    · have hlt : i.val + 1 ≤ y.val := by
        have hne : i.val ≠ y.val := fun e => hiy (Fin.ext e)
        omega
      obtain ⟨a, ha, hp⟩ := hF.linked y hlt
      rw [if_neg hiy]
      refine ⟨a, ha, hp.above, hp.lt, ?_, hp.label.congr fun _ _ => rfl⟩
      intro z hz haz
      exact Nat.le_of_succ_le (hp.linked z hz haz)

theorem Tracks.setSemi (hF : F.Tracks S (i.val + 1)) (s : Fin n) :
    ({ F with semi := F.semi.set i s i.isLt } : SemiForest n).Tracks S (i.val + 1) := by
  refine ⟨hF.unlinked, ?_⟩
  intro x hx
  obtain ⟨a, ha, hp⟩ := hF.linked x hx
  refine ⟨a, ha, hp.above, hp.lt, hp.linked, hp.label.above, hp.label.le, ?_⟩
  intro y hy hay
  -- every vertex the label speaks for is linked, so none of them is `i`
  have hbeyond : ∀ z, Above S.up z x → a.val + 1 ≤ z.val →
      (F.semi.set i s i.isLt).get z = F.semi.get z := by
    intro z hz haz
    have hiz : i ≠ z := fun e => Nat.lt_irrefl _ (e ▸ hp.linked z hz haz)
    rw [vector_get_set, if_neg hiz]
  simp only
  rw [hbeyond _ hp.label.above hp.label.le, hbeyond y hy hay]
  exact hp.label.least y hy hay

end SemiForest

end ControlFlow

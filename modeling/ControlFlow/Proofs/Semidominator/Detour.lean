import ControlFlow.Proofs.Route
import ControlFlow.Semidominator.Sweep
import Mathlib.Order.Bounds.Basic
import Mathlib.Order.Fin.Basic

namespace ControlFlow.Spanning

open Relation

variable {n : Nat} {S : Spanning n} {a c d p r s u v w x : Fin n}

def Edge (S : Spanning n) (u v : Fin n) : Prop :=
  u ∈ S.preds.get v

def up (S : Spanning n) (v : Fin n) : Option (Fin n) :=
  if v.val = 0 then none else some (S.parent.get v)

def Descends (S : Spanning n) : Prop :=
  ∀ v : Fin n, v.val ≠ 0 → S.parent.get v < v

structure DepthFirst (S : Spanning n) : Prop where
  descends : S.Descends
  parent_edge : ∀ v : Fin n, v.val ≠ 0 → S.Edge (S.parent.get v) v
  contiguous : ∀ a v w, Above S.up a w → a ≤ v → v ≤ w → Above S.up a v
  edge_down : ∀ u v, S.Edge u v → u < v → Above S.up u v

theorem up_eq_some_iff : S.up v = some p ↔ v.val ≠ 0 ∧ S.parent.get v = p := by
  simp only [up]
  split <;> simp_all

namespace Descends

variable (hS : S.Descends)

include hS

theorem rank (x y : Fin n) (h : S.up x = some y) : y.val < x.val := by
  obtain ⟨hx, rfl⟩ := up_eq_some_iff.mp h
  exact hS x hx

theorem le (h : Above S.up a v) : a ≤ v :=
  Above.rank_le hS.rank h

theorem above_of_le (hu : Above S.up u w) (hv : Above S.up v w) (huv : u ≤ v) :
    Above S.up u v :=
  Above.of_rank_le hS.rank hu hv huv

theorem exists_child (h : Above S.up p v) (hne : p ≠ v) :
    ∃ q : Fin n, q.val ≠ 0 ∧ S.parent.get q = p ∧ p < q ∧ Above S.up q v := by
  rcases ReflTransGen.cases_tail h with rfl | ⟨q, hq, hqp⟩
  · exact absurd rfl hne
  · obtain ⟨hq0, rfl⟩ := up_eq_some_iff.mp hqp
    exact ⟨q, hq0, rfl, hS q hq0, hq⟩

end Descends

def Beyond (S : Spanning n) (w u v : Fin n) : Prop :=
  S.Edge u v ∧ w < v

def Detour (S : Spanning n) (c w : Fin n) : Prop :=
  ∃ x, ReflTransGen (S.Beyond w) c x ∧ S.Edge x w

def IsSemidominator (S : Spanning n) (s w : Fin n) : Prop :=
  IsLeast {c | S.Detour c w} s

/-- What a sweep finds below `w`, whatever the edges: the source of an edge into `w`, and all that
it found below a vertex beyond `w` from which the tree leads down to such a source. -/
inductive Leap (S : Spanning n) (c : Fin n) : Fin n → Prop
  | edge {w : Fin n} : S.Edge c w → Leap S c w
  | across {u v w : Fin n} : Leap S c u → w < u → Above S.up u v → S.Edge v w → Leap S c w

theorem Detour.of_edge (h : S.Edge c w) : S.Detour c w :=
  ⟨c, .refl, h⟩

theorem Detour.keeps_off (h : S.Detour c w) (ha : a < w) :
    ReflTransGen (fun u v => S.Edge u v ∧ v ≠ a) c w := by
  obtain ⟨x, hx, hxw⟩ := h
  have hcx : ReflTransGen (fun u v => S.Edge u v ∧ v ≠ a) c x :=
    ReflTransGen.mono (fun u v huv => ⟨huv.1, (ha.trans huv.2).ne'⟩) _ _ hx
  exact hcx.tail ⟨hxw, ha.ne'⟩

theorem exists_crossing (hr : r.val = 0) (h : ¬Dominates S.Edge r s x) (hsx : s < x) :
    ∃ c, c < s ∧ TransGen (S.Beyond s) c x := by
  obtain ⟨hne, hpath⟩ := not_dominates_iff.mp h
  have hrs : r < s := by
    refine lt_of_le_of_ne ?_ hne
    exact Fin.le_def.mpr (hr ▸ Nat.zero_le _)
  have hlast : x < s ∨ ∃ c, c < s ∧ TransGen (S.Beyond s) c x := by
    clear h hsx
    induction hpath with
    | refl => exact .inl hrs
    | @tail y z _ hyz ih =>
        rcases lt_or_gt_of_ne hyz.2 with hzs | hsz
        · exact .inl hzs
        · rcases ih with hys | ⟨c, hc, hcy⟩
          · exact .inr ⟨y, hys, .single ⟨hyz.1, hsz⟩⟩
          · exact .inr ⟨c, hc, hcy.tail ⟨hyz.1, hsz⟩⟩
  rcases hlast with h | h
  · exact absurd hsx h.asymm
  · exact h

namespace DepthFirst

variable (hS : S.DepthFirst)

include hS

theorem parent_detour (hw : w.val ≠ 0) : S.Detour (S.parent.get w) w :=
  .of_edge (hS.parent_edge w hw)

theorem path_down (h : Above S.up a v) : ReflTransGen (S.Beyond a) a v := by
  induction h using ReflTransGen.head_induction_on with
  | refl => exact .refl
  | @head x y hxy hy ih =>
      obtain ⟨hx, rfl⟩ := up_eq_some_iff.mp hxy
      exact ih.tail ⟨hS.parent_edge x hx, lt_of_le_of_lt (hS.descends.le hy) (hS.descends x hx)⟩

theorem above_of_path (h : ReflTransGen (fun u v => S.Edge u v ∧ s ≤ v) s x) :
    Above S.up s x := by
  induction h with
  | refl => exact .refl s
  | @tail x y _ hxy ih =>
      rcases lt_or_ge x y with hlt | hge
      · exact ih.trans (hS.edge_down x y hxy.1 hlt)
      · exact hS.contiguous s y x ih hxy.2 hge

theorem Detour.above (h : S.Detour c w) (hcw : c < w) : Above S.up c w := by
  obtain ⟨x, hx, hxw⟩ := h
  have hcx : ReflTransGen (fun u v => S.Edge u v ∧ c ≤ v) c x :=
    ReflTransGen.mono (fun u v huv => ⟨huv.1, (hcw.trans huv.2).le⟩) _ _ hx
  exact above_of_path hS (hcx.tail ⟨hxw, hcw.le⟩)

theorem exists_least_on_path (h : TransGen (S.Beyond w) c x) :
    ∃ u, w < u ∧ S.Detour c u ∧ Above S.up u x ∧
      ReflTransGen (fun y z => S.Edge y z ∧ u ≤ z) c x := by
  induction h with
  | @single x hcx => exact ⟨x, hcx.2, .of_edge hcx.1, .refl x, .single ⟨hcx.1, le_rfl⟩⟩
  | @tail x y _ hxy ih =>
      obtain ⟨u, hwu, hcu, hux, hpath⟩ := ih
      rcases le_or_gt u y with hle | hlt
      · refine ⟨u, hwu, hcu, ?_, hpath.tail ⟨hxy.1, hle⟩⟩
        rcases lt_or_ge x y with hxlt | hge
        · exact hux.trans (hS.edge_down x y hxy.1 hxlt)
        · exact hS.contiguous u y x hux hle hge
      · have hbeyond : ReflTransGen (S.Beyond y) c x :=
          ReflTransGen.mono (fun _ _ hz => ⟨hz.1, lt_of_lt_of_le hlt hz.2⟩) _ _ hpath
        have hover : ReflTransGen (fun z z' => S.Edge z z' ∧ y ≤ z') c x :=
          ReflTransGen.mono (fun _ _ hz => ⟨hz.1, hz.2.le⟩) _ _ hbeyond
        exact ⟨y, hxy.2, ⟨x, hbeyond, hxy.1⟩, .refl y, hover.tail ⟨hxy.1, le_rfl⟩⟩

theorem Detour.extend (h : S.Detour c u) (hwu : w < u) (huv : Above S.up u v)
    (hvw : S.Edge v w) : S.Detour c w := by
  obtain ⟨x, hcx, hxu⟩ := h
  have hcx : ReflTransGen (S.Beyond w) c x :=
    ReflTransGen.mono (fun _ _ h => ⟨h.1, hwu.trans h.2⟩) _ _ hcx
  have huv : ReflTransGen (S.Beyond w) u v :=
    ReflTransGen.mono (fun _ _ h => ⟨h.1, hwu.trans h.2⟩) _ _ (hS.path_down huv)
  exact ⟨v, (hcx.tail ⟨hxu, hwu⟩).trans huv, hvw⟩

theorem leap_iff : S.Leap c w ↔ S.Detour c w := by
  constructor
  · intro h
    induction h with
    | edge hcw => exact .of_edge hcw
    | across _ hwu huv hvw ih => exact Detour.extend hS ih hwu huv hvw
  · induction hk : n - w.val using Nat.strongRecOn generalizing w with
    | ind k ih =>
        rintro ⟨x, hcx, hxw⟩
        rcases reflTransGen_iff_eq_or_transGen.mp hcx with rfl | hcx
        · exact .edge hxw
        · obtain ⟨u, hwu, hcu, hux, -⟩ := exists_least_on_path hS hcx
          have hlt : n - u.val < k := by
            have hwu : w.val < u.val := hwu
            omega
          exact .across (ih _ hlt rfl hcu) hwu hux hxw

theorem isSemidominator_iff : S.IsSemidominator s w ↔ IsLeast {c | S.Leap c w} s := by
  simp only [IsSemidominator, leap_iff hS]

section Dominance

variable (hr : r.val = 0)

include hr

theorem above_of_dominates (h : Dominates S.Edge r a v) : Above S.up a v := by
  by_contra hav
  revert h
  induction hk : v.val using Nat.strongRecOn generalizing v with
  | ind k ih =>
      by_cases hv : v.val = 0
      · have hvr : v = r := Fin.ext (hv.trans hr.symm)
        subst hvr
        exact not_dominates_iff.mpr ⟨fun e => hav (e ▸ .refl v), .refl⟩
      · have hup : S.up v = some (S.parent.get v) := up_eq_some_iff.mpr ⟨hv, rfl⟩
        have hap : ¬Above S.up a (S.parent.get v) := fun h => hav (.of_up hup h)
        have hva : v ≠ a := fun e => hav (e ▸ .refl v)
        exact not_dominates_of_path (ih _ (hk ▸ hS.descends v hv) hap rfl)
          (.single ⟨hS.parent_edge v hv, hva⟩)

theorem lt_of_strictlyDominates (h : StrictlyDominates S.Edge r a v) : a < v :=
  lt_of_le_of_ne (hS.descends.le (above_of_dominates hS hr h.2)) h.1

theorem dominates_of_detour (h : StrictlyDominates S.Edge r a w) (hc : S.Detour c w) :
    Dominates S.Edge r a c := by
  by_contra hac
  exact not_dominates_of_path hac (hc.keeps_off (lt_of_strictlyDominates hS hr h)) h.2

theorem isIdom_semidominator (hs : S.IsSemidominator s w) (hsw : s < w)
    (hall : ∀ u c, s < u → Above S.up u w → S.Detour c u → s ≤ c) :
    IsIdom S.Edge r s w := by
  refine ⟨⟨hsw.ne, ?_⟩, fun e he => dominates_of_detour hS hr he hs.1⟩
  by_contra hdom
  obtain ⟨c, hcs, hcw⟩ := exists_crossing hr hdom hsw
  obtain ⟨u, hsu, hcu, huw, -⟩ := exists_least_on_path hS hcw
  exact absurd (hall u c hsu huw hcu) (not_le.mpr hcs)

theorem isIdom_of_least {m : Fin n} (hs : S.IsSemidominator s w) (hsu : s < u)
    (huw : Above S.up u w) (hm : S.IsSemidominator m u) (hms : m < s)
    (hall : ∀ v c, s < v → Above S.up v w → S.Detour c v → m ≤ c)
    (hd : IsIdom S.Edge r d u) : IsIdom S.Edge r d w := by
  have huw' : u ≤ w := hS.descends.le huw
  have hdm : d ≤ m :=
    hS.descends.le (above_of_dominates hS hr (dominates_of_detour hS hr hd.1 hm.1))
  have hds : d < s := lt_of_le_of_lt hdm hms
  have hdw : d < w := lt_of_lt_of_le (hds.trans hsu) huw'
  refine ⟨⟨hdw.ne, ?_⟩, ?_⟩
  · by_contra hdom
    obtain ⟨c, hcd, hcw⟩ := exists_crossing hr hdom hdw
    obtain ⟨y, hdy, hcy, hyw, -⟩ := exists_least_on_path hS hcw
    have hys : y ≤ s := by
      by_contra hsy
      exact absurd (hall y c (not_le.mp hsy) hyw hcy) (not_le.mpr (lt_of_lt_of_le hcd hdm))
    have hyu : Above S.up y u := hS.descends.above_of_le hyw huw (hys.trans hsu.le)
    have hc : ¬Dominates S.Edge r d c := fun h =>
      absurd (hS.descends.le (above_of_dominates hS hr h)) (not_le.mpr hcd)
    have hy : ¬Dominates S.Edge r d y := not_dominates_of_path hc (hcy.keeps_off hdy)
    have hyu : ReflTransGen (fun a b => S.Edge a b ∧ b ≠ d) y u :=
      ReflTransGen.mono (fun _ _ h => ⟨h.1, (hdy.trans h.2).ne'⟩) _ _ (path_down hS hyu)
    exact not_dominates_of_path hy hyu hd.1.2
  · intro e he
    have hes : e ≤ s :=
      hS.descends.le (above_of_dominates hS hr (dominates_of_detour hS hr he hs.1))
    have heu : e < u := lt_of_le_of_lt hes hsu
    refine hd.2 e ⟨heu.ne, ?_⟩
    by_contra hdom
    have huw : ReflTransGen (fun a b => S.Edge a b ∧ b ≠ e) u w :=
      ReflTransGen.mono (fun _ _ h => ⟨h.1, (heu.trans h.2).ne'⟩) _ _ (path_down hS huw)
    exact not_dominates_of_path hdom huw he.2

end Dominance

end DepthFirst

end ControlFlow.Spanning

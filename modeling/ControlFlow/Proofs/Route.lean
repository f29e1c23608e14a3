import ControlFlow.View
import Mathlib.Logic.Relation
import Mathlib.Tactic.ByContra

namespace ControlFlow

open Relation

variable {α : Type} {R : α → α → Prop} {a b c r : α}

/-- The vertices met on a way from `a` to `b`, both ends included. -/
inductive Route (R : α → α → Prop) : α → α → List α → Prop
  | here (a : α) : Route R a a [a]
  | step {a b c : α} {p : List α} : R a b → Route R b c p → Route R a c (a :: p)

theorem Route.append_step {p : List α} (h : Route R a b p) (hbc : R b c) :
    Route R a c (p ++ [c]) := by
  induction h with
  | here a => exact .step hbc (.here c)
  | step hab _ ih => exact .step hab (ih hbc)

theorem Route.reverse {p : List α} (h : Route R a b p) :
    Route (fun x y => R y x) b a p.reverse := by
  induction h with
  | here a => exact .here a
  | @step a b c p hab _ ih =>
      rw [List.reverse_cons]
      exact ih.append_step hab

theorem exists_route_avoiding_iff :
    (∃ p, Route R r b p ∧ a ∉ p) ↔ r ≠ a ∧ ReflTransGen (fun u v => R u v ∧ v ≠ a) r b := by
  constructor
  · rintro ⟨p, hp, ha⟩
    induction hp with
    | here x => exact ⟨fun e => ha (by simp [e]), .refl⟩
    | step hxy _ ih =>
        simp only [List.mem_cons, not_or] at ha
        obtain ⟨hne, hy⟩ := ih ha.2
        exact ⟨Ne.symm ha.1, hy.head ⟨hxy, hne⟩⟩
  · rintro ⟨hne, h⟩
    induction h using ReflTransGen.head_induction_on with
    | refl => exact ⟨[b], .here b, by simpa using Ne.symm hne⟩
    | head hxy _ ih =>
        obtain ⟨p, hp, ha⟩ := ih hxy.2
        exact ⟨_, .step hxy.1 hp, by simp [Ne.symm hne, ha]⟩

theorem exists_route_iff : (∃ p, Route R r b p) ↔ ReflTransGen R r b := by
  constructor
  · rintro ⟨p, hp⟩
    induction hp with
    | here x => exact .refl
    | step hxy _ ih => exact ih.head hxy
  · intro h
    induction h with
    | refl => exact ⟨_, .here r⟩
    | tail _ hxy ih =>
        obtain ⟨p, hp⟩ := ih
        exact ⟨_, hp.append_step hxy⟩

theorem Route.reaches_of_mem {p : List α} (h : Route R a b p) (hc : c ∈ p) :
    ReflTransGen R a c := by
  induction h with
  | here a =>
      rw [List.mem_singleton.mp hc]
  | step hxy _ ih =>
      rcases List.mem_cons.mp hc with rfl | hc
      · exact .refl
      · exact (ih hc).head hxy

def Dominates (R : α → α → Prop) (r a b : α) : Prop :=
  ∀ p, Route R r b p → a ∈ p

def StrictlyDominates (R : α → α → Prop) (r a b : α) : Prop :=
  a ≠ b ∧ Dominates R r a b

def IsIdom (R : α → α → Prop) (r d b : α) : Prop :=
  StrictlyDominates R r d b ∧ ∀ e, StrictlyDominates R r e b → Dominates R r e d

theorem not_dominates_iff :
    ¬Dominates R r a b ↔ r ≠ a ∧ ReflTransGen (fun u v => R u v ∧ v ≠ a) r b := by
  rw [← exists_route_avoiding_iff]
  simp [Dominates]

theorem dominates_swap_iff :
    Dominates (fun x y => R y x) r a b ↔ ∀ p, Route R b r p → a ∈ p := by
  constructor
  · exact fun h p hp => List.mem_reverse.mp (h _ hp.reverse)
  · intro h p hp
    rw [← List.mem_reverse]
    exact h _ hp.reverse

theorem dominates_self : Dominates R r b b := by
  by_contra h
  obtain ⟨hne, h⟩ := not_dominates_iff.mp h
  rcases h.cases_tail with rfl | ⟨_, _, hb⟩
  · exact hne rfl
  · exact hb.2 rfl

theorem not_dominates_of_path (hc : ¬Dominates R r a c)
    (h : ReflTransGen (fun u v => R u v ∧ v ≠ a) c b) : ¬Dominates R r a b := by
  obtain ⟨hne, hc⟩ := not_dominates_iff.mp hc
  exact not_dominates_iff.mpr ⟨hne, hc.trans h⟩

theorem Dominates.trans (hab : Dominates R r a b) (hbc : Dominates R r b c) :
    Dominates R r a c := by
  by_contra hac
  obtain ⟨hne, h⟩ := not_dominates_iff.mp hac
  -- the first visit of `b` on a way that keeps off `a` would itself keep off `a`
  have hkeep : ∀ x, ReflTransGen (fun u v => R u v ∧ v ≠ a) r x → ¬Dominates R r b x := by
    intro x hx
    have hrb : r ≠ b := fun e => not_dominates_iff.mpr ⟨hne, e ▸ .refl⟩ hab
    refine not_dominates_iff.mpr ⟨hrb, ?_⟩
    induction hx with
    | refl => exact .refl
    | @tail y z hy hyz ih =>
        exact ih.tail ⟨hyz.1, fun e => not_dominates_iff.mpr ⟨hne, e ▸ hy.tail hyz⟩ hab⟩
  exact hkeep c h hbc

def Above (up : α → Option α) (a v : α) : Prop :=
  ReflTransGen (fun x y => up x = some y) v a

namespace Above

variable {up : α → Option α} {p u v w : α}

theorem refl (v : α) : Above up v v :=
  ReflTransGen.refl

theorem of_up (hv : up v = some p) (h : Above up a p) : Above up a v :=
  ReflTransGen.head hv h

theorem trans (hab : Above up a b) (hbc : Above up b c) : Above up a c :=
  ReflTransGen.trans hbc hab

theorem eq_or_up (h : Above up a v) : a = v ∨ ∃ p, up v = some p ∧ Above up a p := by
  rcases ReflTransGen.cases_head h with rfl | ⟨p, hp, h⟩
  · exact .inl rfl
  · exact .inr ⟨p, hp, h⟩

theorem up_of_ne (h : Above up a v) (hne : a ≠ v) (hv : up v = some p) : Above up a p := by
  rcases h.eq_or_up with rfl | ⟨q, hq, h⟩
  · exact absurd rfl hne
  · rw [hv] at hq
    cases hq
    exact h

theorem iff_of_up (hv : up v = some p) : Above up a v ↔ a = v ∨ Above up a p := by
  constructor
  · intro h
    by_cases hav : a = v
    · exact .inl hav
    · exact .inr (h.up_of_ne hav hv)
  · rintro (rfl | h)
    · exact .refl a
    · exact .of_up hv h

theorem iff_of_top (hv : up v = none) : Above up a v ↔ a = v := by
  constructor
  · intro h
    rcases h.eq_or_up with h | ⟨p, hp, -⟩
    · exact h
    · simp [hv] at hp
  · rintro rfl
    exact .refl a

theorem total (hu : Above up u w) (hv : Above up v w) : Above up u v ∨ Above up v u := by
  refine (ReflTransGen.total_of_right_unique ?_ hu hv).symm
  intro x y z hy hz
  exact Option.some.inj (hy.symm.trans hz)

theorem mono {up' : α → Option α} (hup : ∀ x y, up x = some y → up' x = some y)
    (h : Above up a v) : Above up' a v :=
  ReflTransGen.mono hup _ _ h

variable {rank : α → Nat} (hrank : ∀ x y, up x = some y → rank y < rank x)

include hrank

theorem rank_le (h : Above up a v) : rank a ≤ rank v := by
  induction h using ReflTransGen.head_induction_on with
  | refl => exact Nat.le_refl _
  | head hx _ ih => exact Nat.le_trans ih (Nat.le_of_lt (hrank _ _ hx))

theorem rank_lt (h : Above up a v) (hne : a ≠ v) : rank a < rank v := by
  rcases h.eq_or_up with rfl | ⟨p, hp, h⟩
  · exact absurd rfl hne
  · exact Nat.lt_of_le_of_lt (rank_le hrank h) (hrank _ _ hp)

theorem of_rank_le (hu : Above up u w) (hv : Above up v w) (hle : rank u ≤ rank v) :
    Above up u v := by
  rcases total hu hv with h | h
  · exact h
  · by_cases hne : v = u
    · exact hne ▸ .refl v
    · exact absurd (rank_lt hrank h hne) (Nat.not_lt.mpr hle)

end Above

theorem above_iff_dominates {up : α → Option α} {rank : α → Nat} {inside : α → Prop}
    (hrank : ∀ x y, up x = some y → rank y < rank x) (hroot : up r = none)
    (hup : ∀ x, inside x → x ≠ r → ∃ d, up x = some d ∧ inside d ∧ IsIdom R r d x)
    (hb : inside b) : Above up a b ↔ Dominates R r a b := by
  induction hk : rank b using Nat.strongRecOn generalizing b with
  | ind k ih =>
      by_cases hbr : b = r
      · subst hbr
        rw [Above.iff_of_top hroot]
        constructor
        · rintro rfl
          exact dominates_self
        · intro h
          have hmem := h [b] (.here b)
          simpa only [List.mem_singleton] using hmem
      · obtain ⟨d, hd, hdin, hidom⟩ := hup b hb hbr
        have ih := ih (rank d) (hk ▸ hrank _ _ hd) hdin rfl
        rw [Above.iff_of_up hd, ih]
        constructor
        · rintro (rfl | h)
          · exact dominates_self
          · exact h.trans hidom.1.2
        · intro h
          by_cases hab : a = b
          · exact .inl hab
          · exact .inr (hidom.2 a ⟨hab, h⟩)

namespace View

def Step (g : View) (u v : BlockId) : Prop :=
  v ∈ g.succs u

def Reaches (g : View) (a b : BlockId) : Prop :=
  ReflTransGen g.Step a b

theorem getElem?_foldr_modify {u : BlockId} (pairs : List (BlockId × BlockId))
    (t : Array (List BlockId)) :
    (pairs.foldr (fun p t => t.modify p.1 (p.2 :: ·)) t)[u]? =
      (t[u]?).map ((pairs.filter (·.1 == u)).map (·.2) ++ ·) := by
  induction pairs with
  | nil => simp
  | cons p pairs ih =>
      rw [List.foldr_cons, Array.getElem?_modify, ih]
      by_cases hp : p.1 = u
      · rw [if_pos hp, List.filter_cons_of_pos (by simpa using hp), Option.map_map]
        rfl
      · rw [if_neg hp, List.filter_cons_of_neg (by simpa using hp)]

theorem getElem?_lists {n : Nat} {u : BlockId} (pairs : List (BlockId × BlockId)) (hu : u < n) :
    (lists n pairs)[u]? = some ((pairs.filter (·.1 == u)).map (·.2)) := by
  rw [lists, getElem?_foldr_modify, Array.getElem?_replicate, if_pos hu, Option.map_some,
    List.append_nil]

theorem size_lists (n : Nat) (pairs : List (BlockId × BlockId)) : (lists n pairs).size = n := by
  rw [lists]
  induction pairs with
  | nil => exact Array.size_replicate
  | cons p pairs ih => rw [List.foldr_cons, Array.size_modify, ih]

theorem mem_lists {n : Nat} {u v : BlockId} {pairs : List (BlockId × BlockId)} :
    v ∈ (lists n pairs)[u]?.getD [] ↔ u < n ∧ (u, v) ∈ pairs := by
  by_cases hu : u < n
  · rw [getElem?_lists pairs hu, Option.getD_some, List.mem_map]
    simp only [List.mem_filter, beq_iff_eq, hu, true_and]
    constructor
    · rintro ⟨⟨x, y⟩, ⟨hmem, rfl⟩, rfl⟩
      exact hmem
    · exact fun hmem => ⟨(u, v), ⟨hmem, rfl⟩, rfl⟩
  · rw [Array.getElem?_eq_none (by rw [size_lists]; exact Nat.not_lt.mp hu)]
    simp [hu]

end View

end ControlFlow

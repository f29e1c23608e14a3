import ControlFlow.Proofs.Fixpoint.Rounds

namespace ControlFlow.DomTable

open Relation

variable {n : Nat} {preds : Vector (List (Fin n)) n} {t t' : DomTable n}
  {root c d e p r v : Fin n} {i k m : Nat}

/-- The vertices that can be reached are known, and what guards all predecessors of one of them
guards its entry, which is such a vertex itself. -/
structure Stable (preds : Vector (List (Fin n)) n) (root : Fin n) (t : DomTable n) : Prop where
  root_eq : t.get root = some root
  known_iff : ∀ r, t.Known r ↔ ReflTransGen (Edge preds) root r
  listed : ∃ l, Listed preds t l
  guards : ∀ r d p, t.up? r = some d → Edge preds p r → Guards preds root d p
  guarded : ∀ r d e, t.up? r = some d → (∀ p, Edge preds p r → Guards preds root e p) →
    Guards preds root e d

namespace Stable

variable (h : Stable preds root t)

include h

theorem le_up (hup : t.up? r = some d) (he : ∀ p, Edge preds p r → Guards preds root e p) :
    e ≤ d := by
  obtain ⟨l, hl⟩ := h.listed
  exact (h.guarded r d e hup he).le ((h.known_iff d).mp (hl.known_up hup))

theorem unique (hr : root.val = 0) (h' : Stable preds root t') : t = t' := by
  refine vector_ext fun r => ?_
  by_cases hr0 : r.val = 0
  · have hrr : r = root := Fin.ext (hr0.trans hr.symm)
    rw [hrr, h.root_eq, h'.root_eq]
  · have hknown : t.Known r ↔ t'.Known r := (h.known_iff r).trans (h'.known_iff r).symm
    by_cases hk : t.Known r
    · have hup := hk.up? hr0
      have hup' := (hknown.mp hk).up? hr0
      have heq : t.up r = t'.up r :=
        le_antisymm (h'.le_up hup' (h.guards r _ · hup)) (h.le_up hup (h'.guards r _ · hup'))
      rw [(up?_eq_some_iff.mp hup).2, (up?_eq_some_iff.mp hup').2, heq]
    · have hk' := hknown.not.mp hk
      rw [Known, ← Option.ne_none_iff_exists', not_not] at hk hk'
      rw [hk, hk']

end Stable

namespace Nearing

theorem stable (h : Nearing preds root k 1 t) (hk : 2 * n ≤ k) : Stable preds root t where
  root_eq := h.root_eq
  known_iff r := by
    have hn := r.pos
    exact ⟨h.reaches r, fun hr =>
      h.known (n - 1) r (within_of_reaches hr) (le_trans (by omega) le_turns)⟩
  listed := h.listed
  guards r d p hup hpr j hev := by
    have hn := r.pos
    refine h.sharp r d p _ hup hpr ?_ hev.bounded
    have := le_turns (k := k) (i := 1) (r := r)
    omega
  guarded := h.guarded

variable (hr : root.val = 0)

include hr

theorem exists_round (h : Nearing preds root k 1 t) :
    ∃ t', DomTable.round preds t = .ok t' ∧ Nearing preds root (k + 1) 1 t' := by
  obtain ⟨t', hround, h'⟩ := h.round hr Nat.one_ne_zero (by have := root.isLt; omega)
  exact ⟨t', hround, h'.next_round hr⟩

theorem of_round_eq (h : Nearing preds root k 1 t) (heq : DomTable.round preds t = .ok t) :
    Nearing preds root (k + m) 1 t := by
  induction m with
  | zero => exact h
  | succ m ih =>
      obtain ⟨t', hround, h'⟩ := exists_round hr ih
      rw [heq] at hround
      cases hround
      exact h'

theorem exists_settle (h : Nearing preds root k 1 t) (hm : 2 * n - k < m) :
    ∃ t', settle preds m t = .ok t' ∧ DomTable.round preds t' = .ok t' ∧
      Stable preds root t' := by
  induction m generalizing k t with
  | zero => omega
  | succ m ih =>
      obtain ⟨t', hround, h'⟩ := exists_round hr h
      have hsettle : settle preds (m + 1) t =
          if t' = t then .ok t else settle preds m t' := by
        rw [settle, hround]
        rfl
      rw [hsettle]
      by_cases heq : t' = t
      · subst heq
        rw [if_pos rfl]
        exact ⟨t', rfl, hround, (of_round_eq hr h hround (m := 2 * n)).stable (by omega)⟩
      · rw [if_neg heq]
        refine ih h' ?_
        by_contra hlt
        exact heq ((h'.stable (by omega)).unique hr (h.stable (by omega)))

end Nearing

theorem exists_stable (preds : Vector (List (Fin n)) n) (hr : root.val = 0) :
    ∃ t, settle preds (2 * n + 1) (start n) = .ok t ∧ solve preds = .ok t ∧
      DomTable.round preds t = .ok t ∧ Stable preds root t := by
  have hstart : Nearing preds root 0 1 (start n) := nearing_start hr
  have hpow : 2 * n ≤ Nat.pow (n + 1) n := by
    obtain ⟨m, rfl⟩ := Nat.exists_eq_add_one.mpr root.pos
    calc 2 * (m + 1) ≤ 2 * 2 ^ m := Nat.mul_le_mul_left 2 Nat.lt_two_pow_self
      _ = 2 ^ (m + 1) := by rw [Nat.pow_succ, Nat.mul_comm]
      _ ≤ (m + 1 + 1) ^ (m + 1) := Nat.pow_le_pow_left (by omega) _
  obtain ⟨t, hsettle, hround, h⟩ := hstart.exists_settle hr (m := 2 * n + 1) (by omega)
  obtain ⟨t', hsolve, -, h'⟩ :=
    hstart.exists_settle hr (m := Nat.pow (n + 1) n + 1) (by omega)
  cases h.unique hr h'
  exact ⟨t, hsettle, hsolve, hround, h⟩

inductive Stage (preds : Vector (List (Fin n)) n) : Nat → DomTable n → Prop
  | start : Stage preds 1 (start n)
  | turn {r : Fin n} {t t' : DomTable n} :
      Stage preds r.val t → update preds t r = .ok t' → Stage preds (r.val + 1) t'
  | next_round {t : DomTable n} : Stage preds n t → Stage preds 1 t

theorem Stage.exists_nearing (h : Stage preds i t) (hr : root.val = 0) :
    i ≠ 0 ∧ ∃ k, Nearing preds root k i t := by
  induction h with
  | start => exact ⟨Nat.one_ne_zero, 0, nearing_start hr⟩
  | turn _ hupdate ih =>
      obtain ⟨hi, k, hk⟩ := ih
      obtain ⟨t', hupdate', h'⟩ := hk.update hr rfl hi
      cases hupdate.symm.trans hupdate'
      exact ⟨Nat.succ_ne_zero _, k, h'⟩
  | next_round _ ih =>
      obtain ⟨-, k, hk⟩ := ih
      exact ⟨Nat.one_ne_zero, k + 1, hk.next_round hr⟩

def Calls (preds : Vector (List (Fin n)) n) (t : DomTable n) (p c : Fin n) : Prop :=
  ∃ (r : Fin n) (ps qs : List (Fin n)), Stage preds r.val t ∧ preds.get r = ps ++ p :: qs ∧
    ps.foldlM t.join none = .ok (some c) ∧ t.Known p

theorem Calls.exists_meet (h : Calls preds t p c) : ∃ d, t.meet p c = .ok d := by
  obtain ⟨r, ps, qs, hstage, -, hfold, hp⟩ := h
  have hzero : (⟨0, r.pos⟩ : Fin n).val = 0 := rfl
  obtain ⟨-, k, hk⟩ := hstage.exists_nearing hzero
  obtain ⟨found, hfound, hj⟩ := hk.exists_foldlM_join ps .empty
  cases hfold.symm.trans hfound
  obtain ⟨d, hd, -⟩ := hk.exists_meet hp (hj.known c rfl)
  exact ⟨d, hd⟩

def Ordered (preds : Vector (List (Fin n)) n) : Prop :=
  ∀ r : Fin n, r.val ≠ 0 → ∃ p, Edge preds p r ∧ p < r

structure Settled (preds : Vector (List (Fin n)) n) (root : Fin n) (t : DomTable n) : Prop where
  root_eq : t.get root = some root
  isIdom : ∀ r : Fin n, r.val ≠ 0 → ∃ d, t.get r = some d ∧ IsIdom (Edge preds) root d r

namespace Ordered

variable (hord : Ordered preds) (hr : root.val = 0)

include hord hr

theorem le_of_dominates (h : Dominates (Edge preds) root e v) : e ≤ v := by
  by_contra hnot
  revert h
  induction hk : v.val using Nat.strongRecOn generalizing v with
  | ind k ih =>
      intro h
      have hlt := not_le.mp hnot
      by_cases hv : v.val = 0
      · have hvr : v = root := Fin.ext (hv.trans hr.symm)
        subst hvr
        exact hlt.ne' (dominates_root_iff.mp h)
      · obtain ⟨p, hpv, hlt'⟩ := hord v hv
        exact ih p.val (hk ▸ hlt') (not_le.mpr (hlt'.trans hlt)) rfl (h.of_step hpv hlt.ne')

theorem reaches (v : Fin n) : ReflTransGen (Edge preds) root v := by
  induction hk : v.val using Nat.strongRecOn generalizing v with
  | ind k ih =>
      by_cases hv : v.val = 0
      · have hvr : root = v := Fin.ext (hr.trans hv.symm)
        exact hvr ▸ .refl
      · obtain ⟨p, hpv, hlt⟩ := hord v hv
        exact (ih p.val (hk ▸ hlt) p rfl).tail hpv

theorem guards_iff : Guards preds root e v ↔ Dominates (Edge preds) root e v := by
  constructor
  · intro h
    by_contra hdom
    obtain ⟨hne, hpath⟩ := not_dominates_iff.mp hdom
    have hpos : root < e := by
      have hval : root.val ≠ e.val := fun e' => hne (Fin.ext e')
      rw [Fin.lt_def]
      omega
    have hev : ∃ k, Evades preds root e k v := by
      clear h hdom
      induction hpath with
      | refl => exact ⟨0, .base ⟨.base rfl, hpos⟩⟩
      | tail _ hxy ih =>
          obtain ⟨k, hk⟩ := ih
          exact ⟨k + 1, .step hk hxy⟩
    obtain ⟨k, hk⟩ := hev
    exact h k hk
  · intro h k hev
    induction hev with
    | base hv => exact (hord.le_of_dominates hr h).not_gt hv.2
    | step _ huv ih => exact ih (h.of_step huv.1 huv.2.symm)

theorem settled (h : Stable preds root t) : Settled preds root t where
  root_eq := h.root_eq
  isIdom r hr0 := by
    have hk : t.Known r := (h.known_iff r).mpr (hord.reaches hr r)
    have hup := hk.up? hr0
    obtain ⟨p, hpr, hlt⟩ := hord r hr0
    have hdom : ∀ p, Edge preds p r → Dominates (Edge preds) root (t.up r) p :=
      fun p hp => (hord.guards_iff hr).mp (h.guards r _ p hup hp)
    have hle := hord.le_of_dominates hr (hdom p hpr)
    refine ⟨t.up r, (up?_eq_some_iff.mp hup).2, ⟨(hle.trans_lt hlt).ne, ?_⟩, fun e he => ?_⟩
    · by_contra hnot
      obtain ⟨hne, hpath⟩ := not_dominates_iff.mp hnot
      rcases hpath.cases_tail with rfl | ⟨q, hq, hqr⟩
      · exact hr0 hr
      · exact not_dominates_iff.mpr ⟨hne, hq⟩ (hdom q hqr.1)
    · refine (hord.guards_iff hr).mp (h.guarded r _ e hup fun p hp => ?_)
      exact (hord.guards_iff hr).mpr (he.2.of_step hp he.1)

end Ordered

theorem exists_solve (hord : Ordered preds) (hr : root.val = 0) :
    ∃ t, solve preds = .ok t ∧ Settled preds root t := by
  obtain ⟨t, -, hsolve, -, h⟩ := exists_stable preds hr
  exact ⟨t, hsolve, hord.settled hr h⟩

end ControlFlow.DomTable

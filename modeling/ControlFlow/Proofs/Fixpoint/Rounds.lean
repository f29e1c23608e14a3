import ControlFlow.Proofs.Fixpoint.Guard
import ControlFlow.Proofs.Tables
import Mathlib.Data.List.Nodup

/-!
The table of the fixpoint after some turns, whatever the lists of predecessors. An entry may name a
vertex beyond its own, but never one that became known later, so going up always ends. A vertex that
guards all predecessors of `r` guards the entry of `r` from the first round on; that the entry
itself guards them is known for ways of fewer edges than there were rounds.
-/

namespace ControlFlow.DomTable

open Relation

variable {n : Nat} {preds : Vector (List (Fin n)) n} {t : DomTable n}
  {root a b c d e p q r v : Fin n} {i j k m : Nat} {l : List (Fin n)}

def Known (t : DomTable n) (v : Fin n) : Prop :=
  ∃ d, t.get v = some d

def up? (t : DomTable n) (v : Fin n) : Option (Fin n) :=
  if v.val = 0 then none else t.get v

theorem up?_eq_some_iff : t.up? v = some d ↔ v.val ≠ 0 ∧ t.get v = some d := by
  rw [up?]
  split <;> simp_all

theorem Known.up? (h : t.Known v) (hv : v.val ≠ 0) : t.up? v = some (t.up v) := by
  obtain ⟨d, hd⟩ := h
  rw [up?_eq_some_iff, up, hd]
  exact ⟨hv, rfl⟩

theorem known_set_iff : Known (t.set r (some c) r.isLt) v ↔ r = v ∨ t.Known v := by
  rw [Known, vector_get_set]
  split <;> simp_all [Known]

theorem up?_set (h : up? (t.set r (some c) r.isLt) v = some d) :
    (v = r ∧ d = c) ∨ (r ≠ v ∧ t.up? v = some d) := by
  obtain ⟨hv, hd⟩ := up?_eq_some_iff.mp h
  rw [vector_get_set] at hd
  split at hd
  · rename_i hrv
    exact .inl ⟨hrv.symm, (Option.some.inj hd).symm⟩
  · rename_i hrv
    exact .inr ⟨hrv, up?_eq_some_iff.mpr ⟨hv, hd⟩⟩

def turns (k i : Nat) (r : Fin n) : Nat :=
  if r.val < i then k + 1 else k

theorem le_turns : k ≤ turns k i r := by
  rw [turns]
  split <;> omega

theorem turns_le : turns k i r ≤ k + 1 := by
  rw [turns]
  split <;> omega

theorem turns_succ (hi : r.val = i) (hr : r ≠ v) : turns k (i + 1) v = turns k i v := by
  have hval : v.val ≠ i := fun e => hr (Fin.ext (hi.trans e.symm))
  rw [turns, turns]
  split <;> split <;> omega

inductive Meets (t : DomTable n) (c : Fin n) : Fin n → Prop
  | here : Meets t c c
  | up {a d : Fin n} : t.up? a = some d → c < a → Meets t c d → Meets t c a

namespace Meets

theorem le (h : t.Meets c a) : c ≤ a := by
  cases h with
  | here => exact le_rfl
  | up _ hlt _ => exact hlt.le

theorem trans (h : t.Meets c b) (hb : t.Meets b a) : t.Meets c a := by
  induction hb with
  | here => exact h
  | up hup hlt _ ih => exact .up hup (h.le.trans_lt hlt) ih

end Meets

structure Listed (preds : Vector (List (Fin n)) n) (t : DomTable n) (l : List (Fin n)) : Prop where
  nodup : l.Nodup
  mem_iff : ∀ r, r ∈ l ↔ t.Known r
  up : ∀ r d, t.up? r = some d → l.idxOf d < l.idxOf r
  early : ∀ r ∈ l, r.val ≠ 0 → ∃ p, Edge preds p r ∧ l.idxOf p < l.idxOf r

theorem mem_of_idxOf_lt (hlt : l.idxOf p < l.idxOf r) : p ∈ l :=
  List.idxOf_lt_length_iff.mp (hlt.trans_le List.idxOf_le_length)

namespace Listed

variable (h : Listed preds t l)

include h

theorem known_up (hup : t.up? r = some d) : t.Known d :=
  (h.mem_iff d).mp (mem_of_idxOf_lt (h.up r d hup))

theorem idxOf_lt (hr : t.Known r) : l.idxOf r < n :=
  calc l.idxOf r < l.length := List.idxOf_lt_length_iff.mpr ((h.mem_iff r).mpr hr)
    _ ≤ n := by simpa using h.nodup.length_le_card

theorem idxOf_le_of_meets (hc : t.Meets c a) : l.idxOf c ≤ l.idxOf a := by
  induction hc with
  | here => exact le_rfl
  | up hup _ _ ih => exact ih.trans (h.up _ _ hup).le

theorem set (hr : r.val ≠ 0) (hc : t.Known c) (hp : ∃ p, Edge preds p r ∧ t.Known p)
    (hmeets : ∀ p, Edge preds p r → t.Known p → t.Meets c p) :
    ∃ l', Listed preds (t.set r (some c) r.isLt) l' := by
  by_cases hrl : r ∈ l
  · refine ⟨l, h.nodup, fun x => ?_, fun x d hxd => ?_, h.early⟩
    · rw [known_set_iff, h.mem_iff]
      exact ⟨.inr, fun hx => hx.elim (fun e => e ▸ (h.mem_iff r).mp hrl) id⟩
    · rcases up?_set hxd with ⟨rfl, rfl⟩ | ⟨-, hxd⟩
      · obtain ⟨p, hpr, hlt⟩ := h.early x hrl hr
        have hp := (h.mem_iff p).mp (mem_of_idxOf_lt hlt)
        exact (h.idxOf_le_of_meets (hmeets p hpr hp)).trans_lt hlt
      · exact h.up x d hxd
  · have hold : ∀ x ∈ l, (l ++ [r]).idxOf x = l.idxOf x :=
      fun x hx => List.idxOf_append_of_mem hx
    have hnew : ∀ x ∈ l, (l ++ [r]).idxOf x < (l ++ [r]).idxOf r := by
      intro x hx
      rw [hold x hx, List.idxOf_append_of_notMem hrl]
      exact Nat.lt_add_right _ (List.idxOf_lt_length_iff.mpr hx)
    refine ⟨l ++ [r], ?_, fun x => ?_, fun x d hxd => ?_, fun x hx hx0 => ?_⟩
    · exact List.nodup_append.mpr ⟨h.nodup, List.nodup_singleton r,
        fun x hx y hy e => hrl (List.mem_singleton.mp hy ▸ e ▸ hx)⟩
    · rw [known_set_iff, List.mem_append, List.mem_singleton, h.mem_iff, or_comm, eq_comm]
    · rcases up?_set hxd with ⟨rfl, rfl⟩ | ⟨-, hxd⟩
      · exact hnew d ((h.mem_iff d).mpr hc)
      · have hlt := h.up x d hxd
        have hx : x ∈ l := (h.mem_iff x).mpr ⟨d, (up?_eq_some_iff.mp hxd).2⟩
        rwa [hold x hx, hold d (mem_of_idxOf_lt hlt)]
    · rcases List.mem_append.mp hx with hx | hx
      · obtain ⟨p, hpx, hlt⟩ := h.early x hx hx0
        exact ⟨p, hpx, by rwa [hold x hx, hold p (mem_of_idxOf_lt hlt)]⟩
      · obtain ⟨p, hpr, hp⟩ := hp
        cases List.mem_singleton.mp hx
        exact ⟨p, hpr, hnew p ((h.mem_iff p).mpr hp)⟩

end Listed

structure Nearing (preds : Vector (List (Fin n)) n) (root : Fin n) (k i : Nat)
    (t : DomTable n) : Prop where
  root_eq : t.get root = some root
  reaches : ∀ r, t.Known r → ReflTransGen (Edge preds) root r
  known : ∀ j r, Within preds root j r → j ≤ turns k i r → t.Known r
  listed : ∃ l, Listed preds t l
  guarded : ∀ r d e, t.up? r = some d → (∀ p, Edge preds p r → Guards preds root e p) →
    Guards preds root e d
  sharp : ∀ r d p j, t.up? r = some d → Edge preds p r → j + 1 < turns k i r →
    ¬Evades preds root d j p

theorem nearing_start (hr : root.val = 0) : Nearing preds root 0 1 (start n) := by
  have hget : ∀ r : Fin n, (start n).get r = if r.val = 0 then some r else none :=
    fun r => vector_get_ofFn _ r
  have hknown : ∀ r : Fin n, (start n).Known r ↔ r = root := by
    intro r
    rw [Known, hget, Fin.ext_iff, hr]
    split <;> simp_all
  have hup : ∀ r d, (start n).up? r ≠ some d := by
    intro r d h
    obtain ⟨hne, h⟩ := up?_eq_some_iff.mp h
    rw [hget, if_neg hne] at h
    cases h
  have hlisted : Listed preds (start n) [root] :=
    { nodup := List.nodup_singleton root
      mem_iff := fun r => List.mem_singleton.trans (hknown r).symm
      up := fun r d h => absurd h (hup r d)
      early := fun r hr' hr0 => absurd hr (List.mem_singleton.mp hr' ▸ hr0) }
  exact
    { root_eq := by rw [hget, if_pos hr]
      reaches := fun r h => (hknown r).mp h ▸ .refl
      known := by
        intro j r hw hj
        rw [hknown]
        cases hw with
        | base hroot => exact hroot
        | step hu hur =>
            rw [turns] at hj
            split at hj
            · exact Fin.ext (by omega)
            · omega
      listed := ⟨_, hlisted⟩
      guarded := fun r d e h => absurd h (hup r d)
      sharp := fun r d p j h => absurd h (hup r d) }

namespace Nearing

theorem next_round (h : Nearing preds root k n t) (hr : root.val = 0) :
    Nearing preds root (k + 1) 1 t where
  root_eq := h.root_eq
  reaches := h.reaches
  known j r hw hj := by
    by_cases hr0 : r.val = 0
    · exact ⟨root, (Fin.ext (hr0.trans hr.symm) : r = root) ▸ h.root_eq⟩
    · refine h.known j r hw ?_
      rw [turns, if_neg (by omega)] at hj
      rwa [turns, if_pos r.isLt]
  listed := h.listed
  guarded := h.guarded
  sharp r d p j hd hpr hj := by
    refine h.sharp r d p j hd hpr ?_
    have hr0 : r.val ≠ 0 := (up?_eq_some_iff.mp hd).1
    rw [turns, if_neg (by omega)] at hj
    rwa [turns, if_pos r.isLt]

structure Shared (preds : Vector (List (Fin n)) n) (root : Fin n) (t : DomTable n)
    (a b c : Fin n) : Prop where
  known : t.Known c
  left : t.Meets c a
  right : t.Meets c b
  guarded : ∀ e, Guards preds root e a → Guards preds root e b → Guards preds root e c

theorem Shared.self (ha : t.Known a) : Shared preds root t a a a :=
  ⟨ha, .here, .here, fun _ he _ => he⟩

section Meet

variable (h : Nearing preds root k i t)

include h

theorem up_step (hb : t.Known b) (ha : t.Known a) (hba : b < a) :
    t.up? a = some (t.up a) ∧ ∀ e, Guards preds root e a → Guards preds root e b →
      Guards preds root e (t.up a) := by
  have hup := ha.up? (by have : b.val < a.val := hba; omega)
  refine ⟨hup, fun e hea heb => h.guarded _ _ e hup fun p hpa => ?_⟩
  exact hea.of_edge hpa ((heb.le (h.reaches b hb)).trans_lt hba).ne'

theorem exists_meet? (hl : Listed preds t l) (ha : t.Known a) (hb : t.Known b)
    (hm : l.idxOf a + l.idxOf b ≤ m) :
    ∃ c, t.meet? m a b = some c ∧ Shared preds root t a b c := by
  -- each move is to a vertex that became known earlier
  induction m generalizing a b with
  | zero =>
      have hab : a = b := by
        refine (List.idxOf_inj ((hl.mem_iff a).mpr ha)).mp ?_
        omega
      subst hab
      refine ⟨a, ?_, .self ha⟩
      rw [meet?, if_pos rfl]
  | succ m ih =>
      rw [meet?]
      by_cases hab : a = b
      · subst hab
        rw [if_pos rfl]
        exact ⟨a, rfl, .self ha⟩
      · rw [if_neg hab]
        rcases lt_or_gt_of_ne hab with hlt | hgt
        · obtain ⟨hup, hguards⟩ := h.up_step ha hb hlt
          have hidx := hl.up _ _ hup
          obtain ⟨c, hc, hs⟩ := ih ha (hl.known_up hup) (by omega)
          rw [if_neg hlt.asymm, hc]
          exact ⟨c, rfl, hs.known, hs.left, .up hup (hs.left.le.trans_lt hlt) hs.right,
            fun e hea heb => hs.guarded e hea (hguards e heb hea)⟩
        · obtain ⟨hup, hguards⟩ := h.up_step hb ha hgt
          have hidx := hl.up _ _ hup
          obtain ⟨c, hc, hs⟩ := ih (hl.known_up hup) hb (by omega)
          rw [if_pos hgt, hc]
          exact ⟨c, rfl, hs.known, .up hup (hs.right.le.trans_lt hgt) hs.left, hs.right,
            fun e hea heb => hs.guarded e (hguards e hea heb) heb⟩

theorem exists_meet (ha : t.Known a) (hb : t.Known b) :
    ∃ c, t.meet a b = .ok c ∧ Shared preds root t a b c := by
  obtain ⟨l, hl⟩ := h.listed
  have hm : l.idxOf a + l.idxOf b ≤ n * n := by
    have ha := hl.idxOf_lt ha
    have hb := hl.idxOf_lt hb
    by_cases hn : n = 1
    · omega
    · calc l.idxOf a + l.idxOf b ≤ 2 * n := by omega
        _ ≤ n * n := Nat.mul_le_mul_right n (by omega)
  obtain ⟨c, hc, hs⟩ := h.exists_meet? hl ha hb hm
  refine ⟨c, ?_, hs⟩
  rw [meet, hc]

theorem not_evades_of_meets (hc : t.Meets c p) (hj : j < k) : ¬Evades preds root c j p := by
  induction hc generalizing j with
  | here => exact fun hev => hev.ne rfl
  | @up x y hup hlt hy ih =>
      intro hev
      cases hev with
      | base hx => exact hx.2.asymm hlt
      | @step j u _ hu hux =>
          have hsharp := h.sharp x y u j hup hux.1 (hj.trans_le le_turns)
          rcases hy.le.eq_or_lt with rfl | hcy
          · exact hsharp hu
          · exact ih (by omega) (Evades.until_met hu hcy hsharp)

end Meet

structure Joined (preds : Vector (List (Fin n)) n) (root : Fin n) (t : DomTable n)
    (ps : List (Fin n)) (found : Option (Fin n)) : Prop where
  exists_found : ∀ p ∈ ps, t.Known p → ∃ c, found = some c
  exists_known : ∀ c, found = some c → ∃ p ∈ ps, t.Known p
  known : ∀ c, found = some c → t.Known c
  meets : ∀ c, found = some c → ∀ p ∈ ps, t.Known p → t.Meets c p
  guarded : ∀ c, found = some c → ∀ e, (∀ p ∈ ps, Guards preds root e p) → Guards preds root e c

theorem Joined.empty : Joined preds root t [] none where
  exists_found _ hp := absurd hp List.not_mem_nil
  exists_known _ hc := nomatch hc
  known _ hc := nomatch hc
  meets _ hc := nomatch hc
  guarded _ hc := nomatch hc

variable {ps : List (Fin n)} {found : Option (Fin n)} (h : Nearing preds root k i t)

include h

theorem exists_join (hj : Joined preds root t ps found) (p : Fin n) :
    ∃ found', t.join found p = .ok found' ∧ Joined preds root t (ps ++ [p]) found' := by
  have hold : ∀ x ∈ ps, x ∈ ps ++ [p] := fun x hx => List.mem_append_left _ hx
  have hnew : p ∈ ps ++ [p] := by simp
  have hcases : ∀ x ∈ ps ++ [p], x ∈ ps ∨ x = p := by simp
  cases hp : t.get p with
  | none =>
      have hunknown : ¬t.Known p := fun ⟨q, hq⟩ => by simp [hp] at hq
      have hps : ∀ x ∈ ps ++ [p], t.Known x → x ∈ ps := fun x hx hk =>
        (hcases x hx).resolve_right fun e => hunknown (e ▸ hk)
      refine ⟨found, by simp only [join, hp], ?_, ?_, hj.known, ?_, ?_⟩
      · exact fun x hx hk => hj.exists_found x (hps x hx hk) hk
      · intro c hc
        obtain ⟨x, hx, hk⟩ := hj.exists_known c hc
        exact ⟨x, hold x hx, hk⟩
      · exact fun c hc x hx hk => hj.meets c hc x (hps x hx hk) hk
      · exact fun c hc e he => hj.guarded c hc e fun x hx => he x (hold x hx)
  | some q =>
      have hk : t.Known p := ⟨q, hp⟩
      cases found with
      | none =>
          refine ⟨some p, by simp only [join, hp], fun _ _ _ => ⟨p, rfl⟩, ?_, ?_, ?_, ?_⟩
          · exact fun _ _ => ⟨p, hnew, hk⟩
          · rintro _ ⟨⟩
            exact hk
          · rintro _ ⟨⟩ x hx hkx
            rcases hcases x hx with hx | rfl
            · obtain ⟨c, hc⟩ := hj.exists_found x hx hkx
              cases hc
            · exact .here
          · rintro _ ⟨⟩ e he
            exact he p hnew
      | some c =>
          obtain ⟨c', hc', hs⟩ := h.exists_meet hk (hj.known c rfl)
          have heq : t.join (some c) p = .ok (some c') := by
            simp only [join, hp, hc']
            rfl
          refine ⟨some c', heq, fun _ _ _ => ⟨c', rfl⟩, fun _ _ => ⟨p, hnew, hk⟩, ?_, ?_, ?_⟩
          · rintro _ ⟨⟩
            exact hs.known
          · rintro _ ⟨⟩ x hx hkx
            rcases hcases x hx with hx | rfl
            · exact hs.right.trans (hj.meets c rfl x hx hkx)
            · exact hs.left
          · rintro _ ⟨⟩ e he
            exact hs.guarded e (he p hnew) (hj.guarded c rfl e fun x hx => he x (hold x hx))

theorem exists_foldlM_join (qs : List (Fin n)) (hj : Joined preds root t ps found) :
    ∃ found', qs.foldlM t.join found = .ok found' ∧ Joined preds root t (ps ++ qs) found' := by
  induction qs generalizing ps found with
  | nil => exact ⟨found, rfl, by rwa [List.append_nil]⟩
  | cons q qs ih =>
      obtain ⟨found', hstep, hj⟩ := h.exists_join hj q
      obtain ⟨found'', hrest, hj⟩ := ih hj
      refine ⟨found'', ?_, by rwa [List.append_assoc] at hj⟩
      rw [List.foldlM_cons, hstep]
      exact hrest

theorem exists_known_of_within (hr : r ≠ root) (hw : Within preds root j r) (hj : j ≤ k + 1) :
    ∃ p, Edge preds p r ∧ t.Known p := by
  cases hw with
  | base hroot => exact absurd hroot hr
  | step hu hur => exact ⟨_, hur, h.known _ _ hu (le_trans (by omega) le_turns)⟩

theorem skip (hj : Joined preds root t (preds.get r) none) (hi : r.val = i) (hr : r ≠ root)
    (hr0 : r.val ≠ 0) : t.get r = none ∧ Nearing preds root k (i + 1) t := by
  have hunknown : ∀ p, Edge preds p r → ¬t.Known p := by
    intro p hpr hp
    obtain ⟨c, hc⟩ := hj.exists_found p hpr hp
    cases hc
  have hget : t.get r = none := by
    rw [Option.eq_none_iff_forall_ne_some]
    intro d hd
    obtain ⟨l, hl⟩ := h.listed
    obtain ⟨p, hpr, hlt⟩ := hl.early r ((hl.mem_iff r).mpr ⟨d, hd⟩) hr0
    exact hunknown p hpr ((hl.mem_iff p).mp (mem_of_idxOf_lt hlt))
  refine ⟨hget, h.root_eq, h.reaches, ?_, h.listed, h.guarded, ?_⟩
  · intro j x hw hjx
    by_cases hrx : r = x
    · subst hrx
      obtain ⟨p, hpr, hp⟩ := h.exists_known_of_within hr hw (hjx.trans turns_le)
      exact absurd hp (hunknown p hpr)
    · exact h.known j x hw (turns_succ hi hrx ▸ hjx)
  · intro x d p j hxd hpx hjx
    have hrx : r ≠ x := by
      rintro rfl
      rw [(up?_eq_some_iff.mp hxd).2] at hget
      cases hget
    exact h.sharp x d p j hxd hpx (turns_succ hi hrx ▸ hjx)

theorem set (hj : Joined preds root t (preds.get r) (some c)) (hi : r.val = i) (hr : r ≠ root)
    (hr0 : r.val ≠ 0) : Nearing preds root k (i + 1) (t.set r (some c) r.isLt) where
  root_eq := by rw [vector_get_set, if_neg hr, h.root_eq]
  reaches x hx := by
    rcases known_set_iff.mp hx with rfl | hx
    · obtain ⟨p, hpr, hp⟩ := hj.exists_known c rfl
      exact (h.reaches p hp).tail hpr
    · exact h.reaches x hx
  known j x hw hjx := by
    rw [known_set_iff, or_iff_not_imp_left]
    exact fun hrx => h.known j x hw (turns_succ hi hrx ▸ hjx)
  listed := by
    obtain ⟨l, hl⟩ := h.listed
    exact hl.set hr0 (hj.known c rfl) (hj.exists_known c rfl) (hj.meets c rfl)
  guarded x d e hxd he := by
    rcases up?_set hxd with ⟨rfl, rfl⟩ | ⟨-, hxd⟩
    · exact hj.guarded d rfl e he
    · exact h.guarded x d e hxd he
  sharp x d p j hxd hpx hjx := by
    rcases up?_set hxd with ⟨rfl, rfl⟩ | ⟨hrx, hxd⟩
    · intro hev
      have hjk : j < k := by
        have := turns_le (k := k) (i := i + 1) (r := x)
        omega
      have hp := h.known j p hev.within (hjk.le.trans le_turns)
      exact h.not_evades_of_meets (hj.meets d rfl p hpx hp) hjk hev
    · exact h.sharp x d p j hxd hpx (turns_succ hi hrx ▸ hjx)

variable (hr : root.val = 0)

include hr

theorem update (hi : r.val = i) (hi0 : i ≠ 0) :
    ∃ t', DomTable.update preds t r = .ok t' ∧ Nearing preds root k (i + 1) t' := by
  obtain ⟨found, hfold, hj⟩ := h.exists_foldlM_join (preds.get r) .empty
  rw [List.nil_append] at hj
  have hr0 : r.val ≠ 0 := hi ▸ hi0
  have hrr : r ≠ root := fun e => hr0 (e ▸ hr)
  have hupdate : DomTable.update preds t r = .ok (t.set r found r.isLt) := by
    rw [DomTable.update, hfold]
    rfl
  refine ⟨_, hupdate, ?_⟩
  cases found with
  | none =>
      obtain ⟨hget, h'⟩ := h.skip hj hi hrr hr0
      have hsame : t.set r none r.isLt = t := vector_ext fun x => by
        rw [vector_get_set]
        split
        · rename_i hrx
          rw [← hrx, hget]
        · rfl
      rwa [hsame]
  | some c => exact h.set hj hi hrr hr0

theorem round (hi0 : i ≠ 0) (hin : i ≤ n) :
    ∃ t', ((List.finRange n).drop i).foldlM (DomTable.update preds) t = .ok t' ∧
      Nearing preds root k n t' := by
  induction hm : n - i generalizing i t with
  | zero =>
      have heq : i = n := by omega
      subst heq
      rw [List.drop_of_length_le (by simp)]
      exact ⟨t, rfl, h⟩
  | succ m ih =>
      have hlt : i < n := by omega
      obtain ⟨t', hupdate, h'⟩ := h.update hr (r := ⟨i, hlt⟩) rfl hi0
      obtain ⟨t'', hrest, h''⟩ := ih h' (Nat.succ_ne_zero i) hlt (by omega)
      refine ⟨t'', ?_, h''⟩
      rw [drop_finRange hlt, List.foldlM_cons, hupdate]
      exact hrest

end Nearing

end ControlFlow.DomTable

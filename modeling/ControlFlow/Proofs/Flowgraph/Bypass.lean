import ControlFlow.Proofs.Flowgraph.Core
import ControlFlow.Proofs.Flowgraph.History

namespace ControlFlow

open Flowgraph

variable {π : Type} {b c old new p s : BlockId} {ps : List BlockId} {g g' : Flowgraph π}
  {f : Block π → Block π} {P : Flowgraph π → Prop}

namespace Flowgraph

theorem sameRoles_redirectSuccessor : SameRoles g (g.redirectSuccessor b old new) := by
  have h : SameRoles g (((g.update b (·.redirectSucc old new)).update old (·.dropPred b)).update
      new (·.addPred b)) := by
    refine (((SameRoles.refl g).update ?_).update ?_).update ?_
    · exact fun _ => rfl
    · exact fun _ => rfl
    · exact fun x => x.roles_addPred b
  exact (h.relabel _).trans (.invalidate _)

theorem holds_redirectSuccessor : (g.redirectSuccessor b old new).edges.Holds =
    including (excluding g.edges.Holds b old) b new :=
  edges_invalidate.trans EdgeIndex.holds_reindex

def Apart (g : Flowgraph π) (p s : BlockId) : Prop :=
  g.isTest p = true → s ∉ g.succs p

structure Bypassable (g : Flowgraph π) (b s : BlockId) : Prop where
  idle : g.Idle b
  fed : g.preds b ≠ []
  succs_eq : g.succs b = [s]
  ne : b ≠ s
  apart : ∀ p ∈ g.preds b, g.Apart p s

theorem Bypassable.live (h : g.Bypassable b s) : g.Live b := by
  obtain ⟨x, hx, -⟩ := h.idle
  exact ⟨x, hx⟩

theorem any_isTest_eq_false_iff :
    (ps.any fun p => g.isTest p && decide (s ∈ g.succs p)) = false ↔ ∀ p ∈ ps, g.Apart p s := by
  simp [Apart]

structure Draining (g : Flowgraph π) (b s : BlockId) (ps : List BlockId) : Prop where
  consistent : Consistent g
  live : g.Live b
  target : g.Live s
  ne : b ≠ s
  nodup : ps.Nodup
  mem_preds : ∀ p, p ∈ g.preds b ↔ p ∈ ps
  apart : ∀ p ∈ ps, g.Apart p s

theorem Bypassable.draining (h : g.Bypassable b s) (hg : Consistent g) :
    Draining g b s (g.preds b) := by
  have hbs : g.edges.Holds b s := by
    rw [← hg.mem_succs_iff, h.succs_eq]
    exact List.mem_singleton_self s
  obtain ⟨hb, hs⟩ := hg.ends b s hbs
  exact ⟨hg, hb, hs, h.ne, hg.nodup_preds b, fun p => Iff.rfl, h.apart⟩

theorem Draining.mem_succs (h : Draining g b s ps) (hp : p ∈ ps) : b ∈ g.succs p :=
  h.consistent.mem_succs_iff.mpr (h.consistent.mem_preds_iff.mp ((h.mem_preds p).mpr hp))

theorem Draining.redirectSuccessor (h : Draining g b s (p :: ps)) :
    Draining (g.redirectSuccessor p b s) b s ps := by
  obtain ⟨hp, hps⟩ := List.nodup_cons.mp h.nodup
  have hcons := h.consistent.redirectSuccessor (h.mem_succs List.mem_cons_self) h.ne h.target
  refine ⟨hcons, sameRoles_redirectSuccessor.live_iff.mpr h.live,
    sameRoles_redirectSuccessor.live_iff.mpr h.target, h.ne, hps, fun q => ?_, fun q hq => ?_⟩
  · rw [hcons.mem_preds_iff, holds_redirectSuccessor, including, excluding,
      ← h.consistent.mem_preds_iff, h.mem_preds, List.mem_cons]
    constructor
    · rintro (⟨rfl | hq, hne⟩ | ⟨-, hbs⟩)
      · exact absurd ⟨rfl, rfl⟩ hne
      · exact hq
      · exact absurd hbs h.ne
    · exact fun hq => .inl ⟨.inr hq, fun e => hp (e.1 ▸ hq)⟩
  · intro htest hsq
    rw [isTest_of_core?_eq core?_redirectSuccessor] at htest
    refine h.apart q (List.mem_cons_of_mem p hq) htest ?_
    rw [hcons.mem_succs_iff, holds_redirectSuccessor] at hsq
    rcases hsq with hsq | ⟨rfl, -⟩
    · exact h.consistent.mem_succs_iff.mpr hsq.1
    · exact absurd hq hp

theorem bypassable_iff {x : Block π} (hx : g.block? b = some x) :
    g.Bypassable b s ↔ x.bypassTarget? b = some s ∧ ∀ p ∈ x.preds.toList, g.Apart p s := by
  have hpreds : g.preds b = x.preds.toList := by simp [preds, hx]
  have hsuccs : g.succs b = x.succs.toList := by simp [succs, hx]
  rw [Block.bypassTarget?_eq_some_iff, ← hpreds, ← hsuccs]
  constructor
  · rintro ⟨⟨y, hy, hflags⟩, hfed, hs, hne, hapart⟩
    rw [hx] at hy
    cases hy
    exact ⟨⟨hflags, hfed, hs, hne⟩, hapart⟩
  · rintro ⟨⟨hflags, hfed, hs, hne⟩, hapart⟩
    exact ⟨⟨x, hx, hflags⟩, hfed, hs, hne, hapart⟩

end Flowgraph

namespace Edit

theorem exec_anyM_isTestInto (hlive : ∀ p ∈ ps, g.Live p) :
    (ps.anyM (isTestInto s)).exec g =
      (.ok (ps.any fun p => g.isTest p && decide (s ∈ g.succs p)), g) := by
  induction ps with
  | nil => rfl
  | cons p ps ih =>
      obtain ⟨x, hx⟩ := hlive p List.mem_cons_self
      have hinto : (isTestInto s p).exec g = (.ok (g.isTest p && decide (s ∈ g.succs p)), g) := by
        rw [isTestInto, exec_bind_of_ok (exec_requireLive_of_some hx)]
        simp [isTest, succs, hx]
      rw [List.anyM_cons, exec_bind, hinto, List.any_cons]
      dsimp only
      cases g.isTest p && decide (s ∈ g.succs p) with
      | true => rfl
      | false => exact ih fun q hq => hlive q (List.mem_cons_of_mem p hq)

theorem exists_drain (h : Draining g b s ps) (hg : P g)
    (hredirect : ∀ k p, Consistent k → b ∈ k.succs p → b ≠ s → k.Live s → k.Apart p s → P k →
      P (k.redirectSuccessor p b s)) :
    ∃ k, (ps.forM fun p => redirectSuccessor p b s).exec g = (.ok (), k) ∧ Draining k b s [] ∧
      P k := by
  induction ps generalizing g with
  | nil => exact ⟨g, rfl, h, hg⟩
  | cons p ps ih =>
      have hbp := h.mem_succs List.mem_cons_self
      have hP := hredirect g p h.consistent hbp h.ne h.target (h.apart p List.mem_cons_self) hg
      obtain ⟨k, hk, hdrained⟩ := ih h.redirectSuccessor hP
      refine ⟨k, ?_, hdrained⟩
      exact (exec_bind_of_ok (exec_redirectSuccessor hbp h.ne h.target)).trans hk

theorem exec_bypass_of_not_live (hb : ¬g.Live b) :
    (bypass b).exec g = (.error (.unknownBlock b), g) := by
  rw [bypass, exec_bind, exec_requireLive]
  cases hx : g.block? b with
  | none => rfl
  | some x => exact absurd ⟨x, hx⟩ hb

theorem exec_bypass {x : Block π} (hg : Consistent g) (hx : g.block? b = some x) :
    (bypass b).exec g =
      match x.bypassTarget? b with
      | none => (.ok false, g)
      | some s =>
          if x.preds.toList.any fun p => g.isTest p && decide (s ∈ g.succs p) then (.ok false, g)
          else
            (x.preds.toList.forM (fun p => redirectSuccessor p b s) >>= fun _ =>
              removeBlock b >>= fun _ => pure true).exec g := by
  have hlive : ∀ p ∈ x.preds.toList, g.Live p := fun p hp =>
    (hg.ends p b (((hg.into b x hx).mem_iff p).mp hp)).1
  rw [bypass, exec_bind_of_ok (exec_requireLive_of_some hx)]
  cases x.bypassTarget? b with
  | none => rfl
  | some s =>
      dsimp only
      rw [exec_bind, exec_anyM_isTestInto hlive]
      cases x.preds.toList.any fun p => g.isTest p && decide (s ∈ g.succs p) with
      | true => rfl
      | false => rfl

theorem exec_bypass_of_not_bypassable (hg : Consistent g) (hb : g.Live b)
    (h : ∀ s, ¬g.Bypassable b s) : (bypass b).exec g = (.ok false, g) := by
  obtain ⟨x, hx⟩ := hb
  rw [exec_bypass hg hx]
  cases hs : x.bypassTarget? b with
  | none => rfl
  | some s =>
      refine if_pos ?_
      by_contra hany
      exact h s ((bypassable_iff hx).mpr ⟨hs, any_isTest_eq_false_iff.mp (by simpa using hany)⟩)

theorem exec_bypass_of_bypassable (hg : Consistent g) (h : g.Bypassable b s) (hP : P g)
    (hredirect : ∀ k p, Consistent k → b ∈ k.succs p → b ≠ s → k.Live s → k.Apart p s → P k →
      P (k.redirectSuccessor p b s)) :
    ∃ k y, (bypass b).exec g = (.ok true, k.remove b y) ∧ k.block? b = some y ∧ Consistent k ∧
      k.preds b = [] ∧ P k := by
  obtain ⟨x, hx⟩ := h.live
  obtain ⟨hs, hapart⟩ := (bypassable_iff hx).mp h
  obtain ⟨k, hk, hdrained, hPk⟩ := exists_drain (h.draining hg) hP hredirect
  obtain ⟨y, hy⟩ := hdrained.live
  have hpreds : g.preds b = x.preds.toList := by simp [preds, hx]
  rw [hpreds] at hk
  refine ⟨k, y, ?_, hy, hdrained.consistent, ?_, hPk⟩
  · rw [exec_bypass hg hx, hs]
    dsimp only
    rw [any_isTest_eq_false_iff.mpr hapart, if_neg Bool.false_ne_true, exec_bind_of_ok hk]
    exact exec_bind_of_ok (exec_removeBlock hy)
  · exact List.eq_nil_iff_forall_not_mem.mpr fun p hp => by simpa using (hdrained.mem_preds p).mp hp

theorem keeps_bypass_apart (hredirect : ∀ k p b s, Consistent k → b ∈ k.succs p → b ≠ s → k.Live s →
      k.Apart p s → P k → P (k.redirectSuccessor p b s))
    (hremove : ∀ k b y, Consistent k → k.block? b = some y → k.preds b = [] → P k →
      P (k.remove b y))
    (b : BlockId) : Keeps (fun g => P g ∧ Consistent g) (bypass b) := by
  rintro g ⟨hP, hg⟩
  refine ⟨?_, keeps_bypass Consistent.lasting b g hg⟩
  by_cases hb : g.Live b
  · by_cases h : ∃ s, g.Bypassable b s
    · obtain ⟨s, h⟩ := h
      obtain ⟨k, y, heq, hy, hk, hpreds, hPk⟩ :=
        exec_bypass_of_bypassable hg h hP fun k p => hredirect k p b s
      rw [heq]
      exact hremove k b y hk hy hpreds hPk
    · rw [exec_bypass_of_not_bypassable hg hb (not_exists.mp h)]
      exact hP
  · rw [exec_bypass_of_not_live hb]
    exact hP

end Edit

end ControlFlow

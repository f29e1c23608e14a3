import ControlFlow.Proofs.Flowgraph.BypassAll
import ControlFlow.Proofs.Flowgraph.Prune
import ControlFlow.Proofs.Flowgraph.Tests

namespace ControlFlow

open Flowgraph

variable {π : Type} {b entry exit : BlockId} {g k : Flowgraph π} {P : Flowgraph π → Prop}

namespace Flowgraph

def Misforked (g : Flowgraph π) (b : BlockId) : Prop :=
  ∃ x, g.block? b = some x ∧ x.isTest = true ∧
    ¬∃ t f, x.onTrue = some t ∧ x.onFalse = some f ∧ t ≠ f ∧ ∀ c, c ∈ g.succs b ↔ c = t ∨ c = f

theorem Consistent.forks_iff (hg : Consistent g) {x : Block π} (hx : g.block? b = some x) :
    x.Forks ↔ ∃ t f, x.onTrue = some t ∧ x.onFalse = some f ∧ t ≠ f ∧
      ∀ c, c ∈ g.succs b ↔ c = t ∨ c = f := by
  have hsuccs : g.succs b = x.succs.toList := by simp [succs, hx]
  refine exists₂_congr fun t f => and_congr_right fun _ => and_congr_right fun _ =>
    and_congr_right fun hne => ?_
  have hpair : [t, f].Nodup := by simpa using hne
  have hiff : (∀ c, c ∈ g.succs b ↔ c = t ∨ c = f) ↔ (g.succs b).Perm [t, f] := by
    rw [List.perm_ext_iff_of_nodup (hg.nodup_succs b) hpair]
    simp
  rw [hiff, hsuccs, ← Array.mem_toList_iff, ← Array.mem_toList_iff, ← Array.length_toList]
  constructor
  · rintro ⟨hsize, ht, hf⟩
    have hsub : [t, f].Subperm x.succs.toList := by
      refine hpair.subperm ?_
      intro c hc
      rcases List.mem_pair.mp hc with rfl | rfl
      · exact ht
      · exact hf
    exact (hsub.perm_of_length_le hsize.le).symm
  · intro hperm
    exact ⟨hperm.length_eq, hperm.mem_iff.mpr (by simp), hperm.mem_iff.mpr (by simp)⟩

theorem Consistent.misforked_iff (hg : Consistent g) :
    g.Misforked b ↔ ∃ x, g.block? b = some x ∧ x.isTest = true ∧ ¬x.Forks :=
  exists_congr fun _ => and_congr_right fun hx => and_congr_right fun _ =>
    not_congr (hg.forks_iff hx).symm

theorem Consistent.forked_iff (hg : Consistent g) : g.Forked ↔ ∀ b, ¬g.Misforked b := by
  simp only [Forked, hg.misforked_iff, not_exists, not_and, not_not]

theorem exists_of_firstViolation? {v : Violation} (h : g.firstViolation? = some v) :
    ∃ b x, g.block? b = some x ∧ x.isTest = true ∧ testViolation? b x = some v := by
  obtain ⟨b, -, hb⟩ := List.exists_of_findSome?_eq_some h
  obtain ⟨x, hx, hv⟩ := Option.bind_eq_some_iff.mp hb
  split at hv
  · rename_i htest
    exact ⟨b, x, hx, htest, hv⟩
  · cases hv

theorem Consistent.exists_compute (hg : Consistent g) (hentry : g.Live entry)
    (hexit : g.Live exit) : ∃ r, g.compute entry exit = .ok r := by
  have hsound := hg.sound hentry
  have hreversed := hg.sound_reversed hexit
  obtain ⟨N, hN, hfin⟩ := View.number_finished hsound.root_lt hsound.inRange
  obtain ⟨t, idoms, semis, hbuilt, -, ht, hfix⟩ := View.exists_tree hsound hfin
  have hcontains : ∀ b ∈ t.preorder, t.contains b = true := fun b hb =>
    DomTree.contains_of_mem_preorder hbuilt hb
  have hsame : t.requireSame { t with semis := #[] } = .ok () :=
    DomTree.requireSame_eq rfl rfl fun b hb => ⟨hcontains b hb, hcontains b hb, rfl⟩
  obtain ⟨N', hN', hfin'⟩ := View.number_finished hreversed.root_lt hreversed.inRange
  obtain ⟨t', ht', -⟩ := View.dominators_spec hreversed hfin'
  have hpost : g.view.postDominators exit = .ok t' := by
    rw [View.postDominators, hN']
    exact ht'
  refine ⟨⟨N, t, if g.passes.postDominators then some t' else none⟩, ?_⟩
  rw [compute, hN]
  dsimp only [bind, Except.bind]
  rw [ht, hfix]
  dsimp only
  rw [hsame, hpost]
  cases g.passes.crossCheck <;> cases g.passes.postDominators <;> rfl

end Flowgraph

namespace Edit

theorem exists_runIf {pass : Edit π Nat} (asked : Bool) (hg : P g)
    (hpass : ∃ n k, pass.exec g = (.ok n, k) ∧ P k) :
    ∃ k, (runIf asked pass).exec g = (.ok (), k) ∧ P k := by
  cases asked with
  | false => exact ⟨g, rfl, hg⟩
  | true =>
      obtain ⟨n, k, hk, hPk⟩ := hpass
      refine ⟨k, ?_, hPk⟩
      rw [runIf, exec_bind, hk]
      rfl

theorem exec_analyze_of_no_entry (hentry : g.entry = none) :
    analyze.exec g = (.error .missingEntry, g) := by
  rw [analyze, exec_bind, exec_get]
  simp only [hentry, exec_throw]

theorem exec_analyze_of_no_exit (hentry : g.entry = some entry) (hexit : g.exit = none) :
    analyze.exec g = (.error .missingExit, g) := by
  rw [analyze, exec_bind, exec_get]
  simp only [hentry, hexit, exec_throw]

theorem exec_analyze_fst (hg : Consistent g) (hentry : g.entry = some entry)
    (hexit : g.exit = some exit) :
    ∃ k, (runIf g.passes.prune prune).exec g = (.ok (), k) ∧ Consistent k ∧
      (analyze.exec g).1 = (k.firstViolation?.map Fault.violation).elim (.ok ()) .error := by
  have hguarded : Guarded (fun _ => True) entry exit g := ⟨trivial, hg, hentry, hexit⟩
  have hprune : ∃ n k, prune.exec g = (.ok n, k) ∧ Guarded (fun _ => True) entry exit k := by
    obtain ⟨ds, k, hk, -⟩ := exists_pruned hg hentry
    exact ⟨ds.length, k, hk,
      (guarded_prune Consistent.lasting_true.steady).of_exec hguarded hk⟩
  obtain ⟨k, hk, hkg⟩ := exists_runIf g.passes.prune hguarded hprune
  refine ⟨k, hk, hkg.consistent, ?_⟩
  cases hv : k.firstViolation? with
  | some v =>
      rw [analyze, exec_bind_of_ok (exec_get g), hentry, hexit]
      dsimp only
      rw [exec_bind_of_ok hk, exec_bind_of_ok (exec_get k), hv]
      rfl
  | none =>
      have hbypass : ∃ n k', bypassAll.exec k = (.ok n, k') ∧
          Guarded (fun _ => True) entry exit k' := by
        obtain ⟨n, k', hk', -⟩ := exists_bypassAll hkg.consistent
        exact ⟨n, k', hk', guarded_bypassAll.of_exec hkg hk'⟩
      obtain ⟨k', hk', hkg'⟩ := exists_runIf g.passes.bypass hkg hbypass
      obtain ⟨r, hr⟩ := hkg'.consistent.invalidate.exists_compute
        (live_invalidate.mpr (hkg'.consistent.entry.live hkg'.entry_eq))
        (live_invalidate.mpr (hkg'.consistent.exit.live hkg'.exit_eq))
      exact congrArg Prod.fst
        (exec_analyze hentry hexit hk hv hk' hkg'.consistent hkg'.entry_eq hr)

end Edit

namespace Flowgraph

theorem analyze_outcome_after (passes : Passes) (cs : List (Command π)) :
    let g := after passes cs
    let outcome := (Edit.analyze.exec g).1
    (g.entry = none → outcome = .error .missingEntry) ∧
    (g.entry ≠ none → g.exit = none → outcome = .error .missingExit) ∧
    (g.entry ≠ none → g.exit ≠ none →
      ∃ k, (Edit.runIf g.passes.prune Edit.prune).exec g = (.ok (), k) ∧
        (outcome = .ok () ↔ ∀ b, ¬k.Misforked b) ∧
        ((∃ v, outcome = .error (.violation v)) ↔ ∃ b, k.Misforked b) ∧
        ∀ v, outcome = .error (.violation v) →
          ∃ b x, k.block? b = some x ∧ x.isTest = true ∧ testViolation? b x = some v) := by
  intro g outcome
  have hg : Consistent g := consistent_after passes cs
  refine ⟨fun hentry => ?_, fun hentry hexit => ?_, fun hentry hexit => ?_⟩
  · exact congrArg Prod.fst (Edit.exec_analyze_of_no_entry hentry)
  · obtain ⟨entry, hentry⟩ := Option.ne_none_iff_exists'.mp hentry
    exact congrArg Prod.fst (Edit.exec_analyze_of_no_exit hentry hexit)
  · obtain ⟨entry, hentry⟩ := Option.ne_none_iff_exists'.mp hentry
    obtain ⟨exit, hexit⟩ := Option.ne_none_iff_exists'.mp hexit
    obtain ⟨k, hk, hkc, hout⟩ := Edit.exec_analyze_fst hg hentry hexit
    have hout : outcome = (k.firstViolation?.map Fault.violation).elim (.ok ()) .error := hout
    have hclean := firstViolation?_eq_none_iff.trans hkc.forked_iff
    refine ⟨k, hk, ?_, ?_, ?_⟩
    · rw [← hclean, hout]
      cases k.firstViolation? <;> simp
    · rw [← not_iff_not, not_exists (p := k.Misforked), ← hclean, hout]
      cases k.firstViolation? <;> simp
    · intro v hv
      rw [hout] at hv
      refine exists_of_firstViolation? ?_
      cases hfirst : k.firstViolation? <;> simp_all

end Flowgraph

end ControlFlow

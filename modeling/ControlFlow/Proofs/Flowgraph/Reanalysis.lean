import ControlFlow.Proofs.Flowgraph.Outcome
import ControlFlow.Proofs.Flowgraph.Traces

namespace ControlFlow

open Flowgraph

variable {π : Type} {b entry exit : BlockId} {g h k : Flowgraph π} {r : Results}

namespace Flowgraph

def forget (g : Flowgraph π) : Flowgraph π :=
  { g with
    blocks := g.blocks.map (·.map fun x => { x with marks := none })
    edges := g.edges.clearKinds
    results := none
    layout := none }

theorem Unmarked.blocks_eq (h : Unmarked g) :
    g.blocks.map (·.map fun x => { x with marks := none }) = g.blocks := by
  refine Array.ext_getElem? fun i => ?_
  rw [Array.getElem?_map]
  cases hi : g.blocks[i]? with
  | none => rfl
  | some o =>
      cases o with
      | none => rfl
      | some x =>
          have hx : x.marks = none := h.marks i x (by rw [block?, hi, Option.join_some])
          rw [Option.map_some, Option.map_some, ← hx]

theorem Fresh.invalidate_eq (h : Fresh g) : g.invalidate = g.forget := by
  rw [Flowgraph.invalidate, forget]
  cases hr : g.results with
  | none => rw [(h hr).blocks_eq, (h hr).kinds.clearKinds_eq]
  | some r => rfl

theorem invalidate_invalidate : g.invalidate.invalidate = g.invalidate := by
  cases hr : g.results <;> simp [invalidate, hr]

theorem Consistent.forget_record (h : Consistent g) (hentry : g.Live entry)
    (hr : g.compute entry exit = .ok r) : (g.record r).forget = g.forget := by
  have hblocks : (g.record r).blocks.map (·.map fun x => { x with marks := none }) =
      g.blocks.map (·.map fun x => { x with marks := none }) := by
    refine Array.ext_getElem? fun i => ?_
    rw [Array.getElem?_map, Array.getElem?_map, Flowgraph.record, Array.getElem?_mapIdx]
    cases g.blocks[i]? with
    | none => rfl
    | some o => cases o <;> rfl
  have hedges : (g.record r).edges.clearKinds = g.edges.clearKinds := by
    rw [edges_record]
    refine EdgeIndex.clearKinds_foldl_setKind _ fun c hc => ?_
    have hfin := h.finished hentry hr
    exact h.step_iff.mp (hfin.step_of_mem (Array.mem_toList_iff.mp hc)).2
  rw [forget, hblocks, hedges]
  rfl

theorem view_invalidate : g.invalidate.view = g.view := by
  refine view_eq_of (SameRoles.invalidate g).size fun b => ?_
  rw [block?_invalidate]
  split
  · rfl
  · rw [Option.map_map]
    rfl

theorem passes_invalidate : g.invalidate.passes = g.passes := by
  rw [invalidate]
  split <;> rfl

theorem passes_remove (x : Block π) : (g.remove b x).passes = g.passes := by
  have hdetach : (g.detach b x).passes = g.passes := detach_eq_of (fun _ _ _ => rfl) x
  exact passes_invalidate.trans hdetach

end Flowgraph

namespace Edit

def Pruned (entry : BlockId) (g : Flowgraph π) : Prop :=
  ∀ b, g.Live b → g.view.Reaches entry b ∨ g.exit = some b

theorem exec_prune_of_pruned (hg : Consistent g) (hentry : g.entry = some entry)
    (hpruned : Pruned entry g) : prune.exec g = (.ok 0, g) := by
  obtain ⟨ds, hds, -, hmem⟩ := hg.exists_doomed hentry
  have hnil : ds = [] := by
    refine List.eq_nil_iff_forall_not_mem.mpr fun b hb => ?_
    obtain ⟨hlive, hreach, hexit⟩ := (hmem b).mp hb
    exact (hpruned b hlive).elim hreach hexit
  have hask : (ofExcept (g.doomed entry)).exec g = (.ok [], g) := by
    rw [exec_ofExcept, hds, hnil]
  rw [prune, exec_bind_of_ok (exec_get g), hentry]
  exact exec_bind_of_ok hask

theorem pruned_of_exec {n : Nat} (hg : Consistent g) (hentry : g.entry = some entry)
    (hk : prune.exec g = (.ok n, k)) : Pruned entry k := by
  obtain ⟨ds, k', hk', hremoved, -, hmem, -, hexit⟩ := exists_pruned hg hentry
  cases hk.symm.trans hk'
  have halike := hremoved.alikeFrom hg fun b hb hds => ((hmem b).mp hds).2.1 hb
  intro b hb
  obtain ⟨hlive, hds⟩ := hremoved.live_iff.mp hb
  rw [hmem] at hds
  by_cases hreach : g.view.Reaches entry b
  · exact .inl (halike.reaches hreach)
  · refine .inr (hexit.trans ?_)
    by_contra hne
    exact hds ⟨hlive, hreach, hne⟩

theorem keeps_prune_passes {p : Passes} : Keeps (fun g : Flowgraph π => g.passes = p) prune :=
  keeps_prune_of fun _ _ _ _ _ _ _ _ => keeps_removeBlock_of fun _ x _ hp =>
    (passes_remove x).trans hp

structure Readied (entry exit : BlockId) (g : Flowgraph π) : Prop where
  consistent : Consistent g
  fresh : Fresh g
  entry_eq : g.entry = some entry
  exit_eq : g.exit = some exit
  pruned : g.passes.prune = true → Pruned entry g

theorem readied_of_exec (hg : Consistent g) (hfresh : Fresh g) (hentry : g.entry = some entry)
    (hexit : g.exit = some exit) (hk : (runIf g.passes.prune prune).exec g = (.ok (), k)) :
    Readied entry exit k ∧ k.passes = g.passes := by
  cases hprune : g.passes.prune with
  | false =>
      rw [hprune] at hk
      cases hk
      exact ⟨⟨hg, hfresh, hentry, hexit, fun hp => by simp [hprune] at hp⟩, rfl⟩
  | true =>
      rw [hprune] at hk
      obtain ⟨n, k', hk', hrest⟩ := exec_bind_eq_ok hk
      cases hrest
      obtain ⟨ds, k'', hk'', hremoved, -, -, hkentry, hkexit⟩ := exists_pruned hg hentry
      cases hk'.symm.trans hk''
      have hkfresh := (keeps_prune Fresh.steady).of_exec hfresh hk'
      have hkpasses := (keeps_prune_passes (p := g.passes)).of_exec rfl hk'
      exact ⟨⟨hremoved.consistent, hkfresh, hkentry.trans hentry, hkexit.trans hexit,
        fun _ => pruned_of_exec hg hentry hk'⟩, hkpasses⟩

theorem Readied.record (h : Readied entry exit g) (hr : g.invalidate.compute entry exit = .ok r) :
    Readied entry exit (g.invalidate.record r) where
  consistent :=
    h.consistent.invalidate.record (live_invalidate.mpr (h.consistent.entry.live h.entry_eq)) hr
  fresh := nofun
  entry_eq := (SameRoles.invalidate g).entry.trans h.entry_eq
  exit_eq := (SameRoles.invalidate g).exit.trans h.exit_eq
  pruned hp b hb := by
    rw [view_record, view_invalidate]
    have hlive := live_invalidate.mp (sameRoles_record.live_iff.mp hb)
    have hpasses : g.passes.prune = true := passes_invalidate (g := g) ▸ hp
    exact (h.pruned hpasses b hlive).imp_right (SameRoles.invalidate g).exit.trans

theorem exec_analyze_of_readied (h : Readied entry exit g) (hvalid : g.firstViolation? = none)
    (hbypass : g.passes.bypass = false) (hr : g.invalidate.compute entry exit = .ok r) :
    analyze.exec g = (.ok (), g.invalidate.record r) := by
  have hprune : (runIf g.passes.prune prune).exec g = (.ok (), g) := by
    cases hp : g.passes.prune with
    | false => rfl
    | true =>
        exact exec_bind_of_ok (exec_prune_of_pruned h.consistent h.entry_eq (h.pruned hp))
  have hskip : (runIf g.passes.bypass bypassAll).exec g = (.ok (), g) := by
    rw [hbypass]
    rfl
  exact exec_analyze h.entry_eq h.exit_eq hprune hvalid hskip h.consistent h.entry_eq hr

end Edit

namespace Flowgraph

theorem analyze_again_after (passes : Passes) (cs : List (Command π))
    (hbypass : (after passes cs).passes.bypass = false)
    (hok : Edit.analyze.exec (after passes cs) = (.ok (), h)) :
    Edit.analyze.exec h = (.ok (), h) := by
  have hg : Consistent (after passes cs) := consistent_after passes cs
  have hfresh : Fresh (after passes cs) := (faithful_after passes cs).fresh
  have hforked : h.Forked := Edit.forked_of_analyze hg hok
  obtain ⟨entry, exit, k, k', r, hentry, hexit, hprune, -, hrun, hr, rfl⟩ := Edit.analyze_ok hg hok
  rw [hbypass] at hrun
  cases hrun
  obtain ⟨hk, hpasses⟩ := Edit.readied_of_exec hg hfresh hentry hexit hprune
  have hlive : k.invalidate.Live entry :=
    live_invalidate.mpr (hk.consistent.entry.live hk.entry_eq)
  have hback : (k.invalidate.record r).invalidate = k.invalidate := by
    calc (k.invalidate.record r).invalidate
        = (k.invalidate.record r).forget := Fresh.invalidate_eq nofun
      _ = k.invalidate.forget := hk.consistent.invalidate.forget_record hlive hr
      _ = k.invalidate.invalidate := hk.fresh.invalidate.invalidate_eq.symm
      _ = k.invalidate := invalidate_invalidate
  have hoff : k.invalidate.passes.bypass = false := by rw [passes_invalidate, hpasses, hbypass]
  have hagain := Edit.exec_analyze_of_readied (hk.record hr)
    (firstViolation?_eq_none_iff.mpr hforked) hoff (hback ▸ hr)
  rwa [hback] at hagain

theorem analyze_again_strandedHistory :
    let g := after ⟨true, false, true, true⟩ strandedHistory
    g.passes.bypass = false ∧
      ∃ h, Edit.analyze.exec g = (.ok (), h) ∧ Edit.analyze.exec h = (.ok (), h) := by
  intro g
  have hbypass : (after ⟨true, false, true, true⟩ strandedHistory).passes.bypass = false := by cbv
  have hok : (Edit.analyze.exec (after ⟨true, false, true, true⟩ strandedHistory)).1 = .ok () := by
    cbv
  have hexec : Edit.analyze.exec g = (.ok (), (Edit.analyze.exec g).2) := Prod.ext hok rfl
  exact ⟨hbypass, _, hexec, analyze_again_after _ strandedHistory hbypass hexec⟩

end Flowgraph

end ControlFlow

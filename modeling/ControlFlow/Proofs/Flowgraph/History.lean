import ControlFlow.Proofs.Flowgraph.Record
import ControlFlow.Proofs.Walk

namespace ControlFlow

open Flowgraph

variable {π : Type} {P : Flowgraph π → Prop} {b entry exit : BlockId} {g : Flowgraph π}

theorem Block.bypassTarget?_eq_some_iff {x : Block π} {s : BlockId} :
    x.bypassTarget? b = some s ↔ (x.isEntry = false ∧ x.isExit = false ∧ x.isEmpty = true) ∧
      x.preds.toList ≠ [] ∧ x.succs.toList = [s] ∧ b ≠ s := by
  rw [bypassTarget?]
  split
  · rename_i hflags
    refine iff_of_false nofun fun h => ?_
    simp only [h.1, Bool.not_true, Bool.or_false, Bool.false_or, Array.isEmpty_iff] at hflags
    exact h.2.1 (congrArg Array.toList hflags)
  · rename_i hflags
    simp only [Bool.or_eq_true, not_or, Bool.not_eq_true, Bool.not_eq_false'] at hflags
    obtain ⟨⟨⟨hentry, hexit⟩, hempty⟩, hpreds⟩ := hflags
    rw [and_iff_right ⟨hentry, hexit, hempty⟩, and_iff_right (by simpa using hpreds)]
    rcases x.succs.toList with _ | ⟨t, _ | ⟨t', ts⟩⟩
    · simp
    · grind
    · simp

namespace Flowgraph

theorem Consistent.exists_doomed (hg : Consistent g) (hentry : g.entry = some entry) :
    ∃ ds, g.doomed entry = .ok ds ∧ ds.Nodup ∧
      ∀ b, b ∈ ds ↔ g.Live b ∧ ¬g.view.Reaches entry b ∧ g.exit ≠ some b := by
  have hsound := hg.sound (hg.entry.live hentry)
  obtain ⟨kept, hkept, hcapacity, hmem⟩ :=
    View.exists_reachable hsound.inRange hsound.root_lt
  have hfilter : g.ids.filterM (fun b => do return !(← kept.contains b) && some b != g.exit) =
      .ok (g.ids.filter fun b => !kept.has b && some b != g.exit) := by
    -- each id looked up is below the bound
    refine filterM_eq_ok fun b hb => ?_
    rw [IdSet.contains_of_lt (hcapacity ▸ (mem_ids.mp hb).lt_size)]
    rfl
  refine ⟨g.ids.filter fun b => !kept.has b && some b != g.exit, ?_, g.nodup_ids.filter _,
    fun b => ?_⟩
  · rw [doomed, hkept]
    exact hfilter
  · rw [List.mem_filter, mem_ids, ← hmem b, Bool.and_eq_true, Bool.not_eq_true', bne_iff_ne,
      Bool.not_eq_true, ne_comm]

theorem Consistent.lasting_true : Lasting fun g : Flowgraph π => True ∧ Consistent g :=
  fun k k' hc hk => ⟨trivial, Consistent.lasting k k' hc hk.2⟩

end Flowgraph

namespace Edit

structure Guarded (P : Flowgraph π → Prop) (entry exit : BlockId) (g : Flowgraph π) : Prop where
  holds : P g
  consistent : Consistent g
  entry_eq : g.entry = some entry
  exit_eq : g.exit = some exit

theorem Keeps.runIf {asked : Bool} {pass : Edit π Nat} (h : Keeps P pass) :
    Keeps P (runIf asked pass) := by
  cases asked with
  | true => exact h.bind fun _ => .pure ()
  | false => exact .pure ()

section Steady

variable (hP : Steady fun g => P g ∧ Consistent g)

include hP

theorem Guarded.invalidate (h : Guarded P entry exit g) : Guarded P entry exit g.invalidate where
  holds := (hP _ _ (.invalidate g) ⟨h.holds, h.consistent⟩).1
  consistent := h.consistent.invalidate
  entry_eq := (SameRoles.invalidate g).entry.trans h.entry_eq
  exit_eq := (SameRoles.invalidate g).exit.trans h.exit_eq

theorem Guarded.remove {x : Block π} (h : Guarded P entry exit g) (hx : g.block? b = some x)
    (hentry : b ≠ entry) (hexit : b ≠ exit) : Guarded P entry exit (g.remove b x) where
  holds := (hP _ _ (.remove hx) ⟨h.holds, h.consistent⟩).1
  consistent := h.consistent.remove hx
  entry_eq := by
    rw [entry_remove, h.entry_eq, if_neg fun e => hentry (Option.some.inj e).symm]
  exit_eq := by
    rw [exit_remove, h.exit_eq, if_neg fun e => hexit (Option.some.inj e).symm]

theorem guarded_prune : Keeps (Guarded P entry exit) prune := by
  refine keeps_prune_of fun g start ds hg hstart hds b hb => ?_
  cases hg.entry_eq.symm.trans hstart
  obtain ⟨ds', hds', -, hmem⟩ := hg.consistent.exists_doomed hstart
  cases hds.symm.trans hds'
  obtain ⟨-, hreach, hbexit⟩ := (hmem b).mp hb
  refine keeps_removeBlock_of fun k y hy hk => hk.remove hP hy ?_ ?_
  · rintro rfl
    exact hreach .refl
  · rintro rfl
    exact hbexit hg.exit_eq

theorem guarded_record : Keeps (Guarded P entry exit)
    (do modify (·.invalidate)
        let r ← ofExcept ((← get).compute entry exit)
        record r) := by
  intro g hg
  rw [exec_bind, exec_modify]
  dsimp only
  rw [exec_bind, exec_get]
  dsimp only
  rw [exec_bind, exec_ofExcept]
  have hk := hg.invalidate hP
  cases hr : g.invalidate.compute entry exit with
  | error e => exact hk
  | ok r =>
      dsimp only
      rw [exec_record hk.consistent (hk.consistent.entry.live hk.entry_eq) hr]
      have hrecord := hP _ _ (.record (isDirty_invalidate g) hk.entry_eq hk.exit_eq hr)
        ⟨hk.holds, hk.consistent⟩
      exact ⟨hrecord.1, hrecord.2, hk.entry_eq, hk.exit_eq⟩

end Steady

theorem guarded_bypass (h : Keeps (fun g => P g ∧ Consistent g) (bypass b)) :
    Keeps (Guarded P entry exit) (bypass b) := by
  have hsentinels : Keeps (Guarded (fun _ => True) entry exit) (bypass (π := π) b) := by
    refine keeps_bypass_of (fun p s => ?_) fun g x s hg hx hs => ?_
    · refine keeps_redirectSuccessor_of fun g hold hne hnew hg => ?_
      exact ⟨trivial, hg.consistent.redirectSuccessor hold hne hnew,
        (SameRoles.invalidate _).entry.trans hg.entry_eq,
        (SameRoles.invalidate _).exit.trans hg.exit_eq⟩
    · -- what is bypassed is neither the entry nor the exit
      obtain ⟨⟨hentry, hexit, -⟩, -⟩ := Block.bypassTarget?_eq_some_iff.mp hs
      refine keeps_removeBlock_of fun k y hy hk =>
        hk.remove Consistent.lasting_true.steady hy ?_ ?_
      · rintro rfl
        obtain ⟨y, hy, hflag⟩ := (hg.consistent.entry b).mp hg.entry_eq
        rw [hx] at hy
        cases hy
        simp [hentry] at hflag
      · rintro rfl
        obtain ⟨y, hy, hflag⟩ := (hg.consistent.exit b).mp hg.exit_eq
        rw [hx] at hy
        cases hy
        simp [hexit] at hflag
  intro g hg
  have hg' := hsentinels g ⟨trivial, hg.consistent, hg.entry_eq, hg.exit_eq⟩
  exact ⟨(h g ⟨hg.holds, hg.consistent⟩).1, hg'.consistent, hg'.entry_eq, hg'.exit_eq⟩

theorem keeps_analyze (hP : Steady fun g => P g ∧ Consistent g)
    (hbypass : ∀ b, Keeps (fun g => P g ∧ Consistent g) (bypass b)) :
    Keeps (fun g => P g ∧ Consistent g) analyze := by
  refine .get_bind fun g hg => ?_
  cases hentry : g.entry with
  | none => exact hg
  | some entry =>
      cases hexit : g.exit with
      | none => exact hg
      | some exit =>
          have himp : ∀ k, Guarded P entry exit k → P k ∧ Consistent k :=
            fun k h => ⟨h.holds, h.consistent⟩
          refine himp _ (Keeps.bind (.runIf (guarded_prune hP)) (fun _ => .get_bind fun k hk => ?_)
            g ⟨hg.1, hg.2, hentry, hexit⟩)
          cases k.firstViolation? with
          | some v => exact hk
          | none =>
              exact Keeps.bind (.runIf (keeps_bypassAll_of fun b => guarded_bypass (hbypass b)))
                (fun _ => guarded_record hP) k hk

theorem exec_bind_eq_ok {α β : Type} {e : Edit π α} {f : α → Edit π β} {c : β}
    {h : Flowgraph π} (hok : (e >>= f).exec g = (.ok c, h)) :
    ∃ a k, e.exec g = (.ok a, k) ∧ (f a).exec k = (.ok c, h) := by
  rw [exec_bind] at hok
  split at hok
  · rename_i a k heq
    exact ⟨a, k, heq, hok⟩
  · cases hok

theorem guarded_bypassAll :
    Keeps (Guarded (fun _ => True) entry exit) (bypassAll : Edit π Nat) :=
  keeps_bypassAll_of fun b => guarded_bypass (keeps_bypass Consistent.lasting_true b)

theorem Guarded.revised {k k' : Flowgraph π} {pruning bypassing : Bool}
    (hg : Guarded (fun _ => True) entry exit g)
    (hprune : (runIf pruning prune).exec g = (.ok (), k))
    (hbypass : (runIf bypassing bypassAll).exec k = (.ok (), k')) :
    Guarded (fun _ => True) entry exit k' := by
  have hk := (Keeps.runIf (guarded_prune Consistent.lasting_true.steady)).of_exec hg hprune
  exact (Keeps.runIf guarded_bypassAll).of_exec hk hbypass

theorem exec_analyze {k k' : Flowgraph π} {r : Results} (hentry : g.entry = some entry)
    (hexit : g.exit = some exit) (hprune : (runIf g.passes.prune prune).exec g = (.ok (), k))
    (hvalid : k.firstViolation? = none)
    (hbypass : (runIf g.passes.bypass bypassAll).exec k = (.ok (), k'))
    (hk' : Consistent k') (hentry' : k'.entry = some entry)
    (hr : k'.invalidate.compute entry exit = .ok r) :
    analyze.exec g = (.ok (), k'.invalidate.record r) := by
  rw [analyze, exec_bind_of_ok (exec_get g), hentry, hexit]
  refine (exec_bind_of_ok hprune).trans ?_
  rw [exec_bind_of_ok (exec_get k), hvalid]
  refine (exec_bind_of_ok hbypass).trans ?_
  rw [exec_bind_of_ok (exec_modify _ k'), exec_bind_of_ok (exec_get _)]
  refine (exec_bind_of_ok ?_).trans
    (exec_record hk'.invalidate (live_invalidate.mpr (hk'.entry.live hentry')) hr)
  rw [exec_ofExcept, hr]

theorem analyze_ok {h : Flowgraph π} (hg : Consistent g) (hok : analyze.exec g = (.ok (), h)) :
    ∃ entry exit k k' r, g.entry = some entry ∧ g.exit = some exit ∧
      (runIf g.passes.prune prune).exec g = (.ok (), k) ∧ k.firstViolation? = none ∧
      (runIf g.passes.bypass bypassAll).exec k = (.ok (), k') ∧
      k'.invalidate.compute entry exit = .ok r ∧ h = k'.invalidate.record r := by
  rw [analyze, exec_bind, exec_get] at hok
  cases hentry : g.entry with
  | none => simp [hentry] at hok
  | some entry =>
      cases hexit : g.exit with
      | none => simp [hentry, hexit] at hok
      | some exit =>
          simp only [hentry, hexit] at hok
          obtain ⟨_, k, hk, hok⟩ := exec_bind_eq_ok hok
          rw [exec_bind, exec_get] at hok
          cases hv : k.firstViolation? with
          | some v => simp [hv] at hok
          | none =>
              simp only [hv] at hok
              obtain ⟨_, k', hk', hok⟩ := exec_bind_eq_ok hok
              rw [exec_bind, exec_modify] at hok
              dsimp only at hok
              rw [exec_bind, exec_get] at hok
              obtain ⟨r, _, hr, hok⟩ := exec_bind_eq_ok hok
              rw [exec_ofExcept] at hr
              obtain ⟨hcompute, rfl⟩ := Prod.mk.inj hr
              have hguarded := (Guarded.revised ⟨trivial, hg, hentry, hexit⟩ hk hk').invalidate
                Consistent.lasting_true.steady
              rw [exec_record hguarded.consistent
                (hguarded.consistent.entry.live hguarded.entry_eq) hcompute] at hok
              cases hok
              exact ⟨entry, exit, k, k', r, rfl, rfl, hk, hv, hk', hcompute, rfl⟩

end Edit

inductive Command (π : Type) where
  | addBlock (preds : List BlockId)
  | connectTo (b : BlockId) (targets : List BlockId)
  | connectFrom (b : BlockId) (sources : List BlockId)
  | addArm (arm : Arm) (b : BlockId)
  | setArm (arm : Arm) (b target : BlockId)
  | designate (s : Sentinel) (b : BlockId)
  | markTest (b : BlockId)
  | addSentinels
  | addNode (b : BlockId) (node : π)
  | setPasses (p : Passes)
  | redirectSuccessor (b old new : BlockId)
  | redirectPredecessor (b old new : BlockId)
  | bypass (b : BlockId)
  | bypassAll
  | prune
  | removeBlock (b : BlockId)
  | removeEdge (u v : BlockId)
  | analyze
  | layout

namespace Command

def apply (g : Flowgraph π) : Command π → Flowgraph π
  | addBlock preds => ((Edit.addBlock preds).exec g).2
  | connectTo b targets => ((Edit.connectTo b targets).exec g).2
  | connectFrom b sources => ((Edit.connectFrom b sources).exec g).2
  | addArm arm b => ((Edit.addArm arm b).exec g).2
  | setArm arm b target => ((Edit.setArm arm b target).exec g).2
  | designate s b => ((Edit.designate s b).exec g).2
  | markTest b => ((Edit.markTest b).exec g).2
  | addSentinels => (Edit.addSentinels.exec g).2
  | addNode b node => ((Edit.addNode b node).exec g).2
  | setPasses p => ((Edit.setPasses p).exec g).2
  | redirectSuccessor b old new => ((Edit.redirectSuccessor b old new).exec g).2
  | redirectPredecessor b old new => ((Edit.redirectPredecessor b old new).exec g).2
  | bypass b => ((Edit.bypass b).exec g).2
  | bypassAll => (Edit.bypassAll.exec g).2
  | prune => (Edit.prune.exec g).2
  | removeBlock b => ((Edit.removeBlock b).exec g).2
  | removeEdge u v => ((Edit.removeEdge u v).exec g).2
  | analyze => (Edit.analyze.exec g).2
  | layout => (Edit.layout.exec g).2

def movesArm : Command π → Bool
  | addArm _ _ | setArm _ _ _ | redirectSuccessor _ _ _ | redirectPredecessor _ _ _ => true
  | _ => false

theorem keeps_apply_of (hP : Steady fun g => P g ∧ Consistent g)
    (hbypass : ∀ b, Edit.Keeps (fun g => P g ∧ Consistent g) (Edit.bypass b))
    (hg : P g ∧ Consistent g) (c : Command π) (hc : c.movesArm = false) :
    P (c.apply g) ∧ Consistent (c.apply g) := by
  cases c with
  | addBlock preds => exact Edit.keeps_addBlock hP preds g hg
  | connectTo b targets => exact Edit.keeps_connectTo hP b targets g hg
  | connectFrom b sources => exact Edit.keeps_connectFrom hP b sources g hg
  | addArm arm b => cases hc
  | setArm arm b target => cases hc
  | designate s b => exact Edit.keeps_designate hP s b g hg
  | markTest b => exact Edit.keeps_markTest hP b g hg
  | addSentinels => exact Edit.keeps_addSentinels hP g hg
  | addNode b node => exact Edit.keeps_addNode hP b node g hg
  | setPasses p => exact Edit.keeps_setPasses hP p g hg
  | redirectSuccessor b old new => cases hc
  | redirectPredecessor b old new => cases hc
  | bypass b => exact hbypass b g hg
  | bypassAll => exact Edit.keeps_bypassAll_of hbypass g hg
  | prune => exact Edit.keeps_prune hP g hg
  | removeBlock b => exact Edit.keeps_removeBlock hP b g hg
  | removeEdge u v => exact Edit.keeps_removeEdge hP u v g hg
  | analyze => exact Edit.keeps_analyze hP hbypass g hg
  | layout => exact Edit.keeps_layout hP g hg

theorem keeps_apply (hP : Lasting P) (hg : P g ∧ Consistent g) (c : Command π) :
    P (c.apply g) ∧ Consistent (c.apply g) := by
  have hQ : Lasting fun g : Flowgraph π => P g ∧ Consistent g :=
    fun k k' hc hk => ⟨hP k k' hc hk.1, Consistent.lasting k k' hc hk.2⟩
  cases c with
  | addArm arm b => exact Edit.keeps_addArm hQ arm b g hg
  | setArm arm b target => exact Edit.keeps_setArm hQ arm b target g hg
  | redirectSuccessor b old new => exact Edit.keeps_redirectSuccessor hQ b old new g hg
  | redirectPredecessor b old new => exact Edit.keeps_redirectPredecessor hQ b old new g hg
  | _ => exact keeps_apply_of hQ.steady (Edit.keeps_bypass hQ) hg _ rfl

end Command

namespace Flowgraph

def after (passes : Passes) (cs : List (Command π)) : Flowgraph π :=
  cs.foldl Command.apply (empty passes)

theorem consistent_empty (passes : Passes) : Consistent (empty passes : Flowgraph π) where
  out b x hx := by simp [block?, empty] at hx
  into b x hx := by simp [block?, empty] at hx
  ends u v huv := by simp [empty, EdgeIndex.Holds, EdgeIndex.contains] at huv
  live_eq := rfl
  entry b := by simp [block?, empty]
  exit b := by simp [block?, empty]

theorem keeps_foldl (hP : Lasting P) (hg : P g ∧ Consistent g) (cs : List (Command π)) :
    P (cs.foldl Command.apply g) ∧ Consistent (cs.foldl Command.apply g) :=
  List.foldlRecOn (motive := fun g => P g ∧ Consistent g) cs _ hg fun _ hk c _ =>
    c.keeps_apply hP hk

theorem keeps_after (hP : Lasting P) (passes : Passes) (h : P (empty passes))
    (cs : List (Command π)) : P (after passes cs) ∧ Consistent (after passes cs) :=
  keeps_foldl hP ⟨h, consistent_empty passes⟩ cs

theorem consistent_after (passes : Passes) (cs : List (Command π)) :
    Consistent (after passes cs) :=
  (keeps_after Consistent.lasting passes (consistent_empty passes) cs).2

theorem copies_agree_after (passes : Passes) (cs : List (Command π)) :
    let g := after passes cs
    (∀ u v, (v ∈ g.succs u ↔ g.edges.contains u v = true) ∧
      (u ∈ g.preds v ↔ g.edges.contains u v = true)) ∧
    (∀ b, (g.succs b).Nodup ∧ (g.preds b).Nodup) ∧
    (∀ u v, v ∈ g.succs u ∨ u ∈ g.preds v ∨ g.edges.contains u v = true → g.Live u ∧ g.Live v) ∧
    (∀ b x arm t, g.block? b = some x → x.target? arm = some t → t ∈ g.succs b) ∧
    g.live = g.ids.length ∧
    (∀ b, g.entry = some b ↔ ∃ x, g.block? b = some x ∧ x.isEntry = true) ∧
    ∀ b, g.exit = some b ↔ ∃ x, g.block? b = some x ∧ x.isExit = true := by
  intro g
  have h : Consistent g := consistent_after passes cs
  refine ⟨fun u v => ⟨h.mem_succs_iff, h.mem_preds_iff⟩, ?_, ?_, ?_, h.live_eq, h.entry, h.exit⟩
  · exact fun b => ⟨h.nodup_succs b, h.nodup_preds b⟩
  · intro u v huv
    rw [h.mem_succs_iff, h.mem_preds_iff] at huv
    rcases huv with huv | huv | huv <;> exact h.ends u v huv
  · intro b x arm t hx ht
    exact h.mem_succs_iff.mpr ((h.out b x hx).arm arm t ht)

end Flowgraph

end ControlFlow

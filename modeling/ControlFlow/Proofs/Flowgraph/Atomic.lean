import ControlFlow.Proofs.Flowgraph.BypassAll
import ControlFlow.Proofs.Flowgraph.Prune
import ControlFlow.Proofs.Flowgraph.Stepwise

namespace ControlFlow

open Flowgraph

variable {π α β : Type} {b new old : BlockId} {bs : List BlockId} {g : Flowgraph π}

namespace Flowgraph

theorem entry_append : g.append.entry = g.entry :=
  (SameRoles.invalidate g.grow).entry

theorem exit_append : g.append.exit = g.exit :=
  (SameRoles.invalidate g.grow).exit

end Flowgraph

namespace Edit

/-- The edit changes `g` or refuses, not both. -/
def AtomicAt (g : Flowgraph π) (e : Edit π α) : Prop :=
  ∀ x, (e.exec g).1 = .error x → e.exec g = (.error x, g)

namespace AtomicAt

variable {e : Edit π α} {f : α → Edit π β}

theorem of_ok {a : α} {g' : Flowgraph π} (h : e.exec g = (.ok a, g')) : AtomicAt g e := by
  intro x hx
  rw [h] at hx
  cases hx

theorem throw (x : Fault) : AtomicAt g (throw x : Edit π α) := by
  intro y hy
  cases hy
  rfl

theorem ofExcept (x : Except Fault α) : AtomicAt g (ofExcept x : Edit π α) := by
  intro y hy
  rw [exec_ofExcept] at hy ⊢
  exact congrArg (·, g) hy

theorem bind_of_ok {a : α} (he : e.exec g = (.ok a, g)) (hf : AtomicAt g (f a)) :
    AtomicAt g (e >>= f) := by
  intro x hx
  rw [exec_bind_of_ok he] at hx ⊢
  exact hf x hx

theorem bind_of_error {y : Fault} (he : e.exec g = (.error y, g)) : AtomicAt g (e >>= f) := by
  intro x hx
  rw [exec_bind, he] at hx ⊢
  cases hx
  rfl

theorem get_bind {f : Flowgraph π → Edit π β} (h : AtomicAt g (f g)) : AtomicAt g (get >>= f) :=
  bind_of_ok (exec_get g) h

theorem requireAll_bind {e : Edit π β} (h : (∀ b ∈ bs, g.Live b) → AtomicAt g e) :
    AtomicAt g (requireAll bs >>= fun _ => e) := by
  cases hm : g.firstMissing? bs with
  | none =>
      have hlive := firstMissing?_eq_none_iff.mp hm
      exact bind_of_ok (exec_requireAll_of_live hlive) (h hlive)
  | some b => exact bind_of_error (by rw [exec_requireAll, hm])

theorem requireLive_bind {f : Block π → Edit π β}
    (h : ∀ x, g.block? b = some x → AtomicAt g (f x)) : AtomicAt g (requireLive b >>= f) := by
  cases hx : g.block? b with
  | none => exact bind_of_error (by rw [exec_requireLive, hx])
  | some x => exact bind_of_ok (exec_requireLive_of_some hx) (h x hx)

theorem redirect (q : Block π → Bool) (k : Flowgraph π → Flowgraph π) :
    AtomicAt g (requireAll [new] >>= fun _ => if old = new then pure () else
      requireLive b >>= fun x => if q x then modify k else pure () : Edit π Unit) := by
  refine requireAll_bind fun _ => ?_
  split
  · exact of_ok (exec_pure () g)
  · refine requireLive_bind fun x _ => ?_
    split
    · exact of_ok (exec_modify k g)
    · exact of_ok (exec_pure () g)

end AtomicAt

theorem exec_designate (s : Sentinel) (hb : g.Live b) (hfree : g.sentinel? s = none) :
    (designate s b).exec g = (.ok (), g.designate s b) := by
  rw [designate, exec_bind_of_ok (exec_requireAll_of_live (by simpa using hb)),
    exec_bind_of_ok (exec_get g), hfree]
  rfl

theorem atomicAt_addBlock : AtomicAt g (addBlock bs) :=
  .requireAll_bind fun _ => .of_ok (exec_modifyGet _ g)

theorem atomicAt_addArm (arm : Arm) : AtomicAt g (addArm arm b) := by
  -- the arm is set after the block was added, so it must not be refused
  by_cases hb : g.Live b
  · exact .of_ok (exec_addArm arm hb)
  · exact .requireAll_bind fun hlive => absurd (hlive b List.mem_cons_self) hb

theorem atomicAt_designate (s : Sentinel) : AtomicAt g (designate s b) := by
  refine .requireAll_bind fun _ => .get_bind ?_
  cases (g.sentinel? s).filter (· != b) with
  | some c => exact .throw _
  | none => exact .of_ok (exec_modify _ g)

theorem exists_addSentinels (hentry : g.entry = none) (hexit : g.exit = none) :
    ∃ g', addSentinels.exec g = (.ok (g.blocks.size, g.append.blocks.size), g') := by
  have hfirst : g.append.append.Live g.blocks.size :=
    live_append.mpr (.inr (live_append.mpr (.inl rfl)))
  have hsecond : g.append.append.Live g.append.blocks.size := live_append.mpr (.inl rfl)
  have hentry' : g.append.append.entry = none := entry_append.trans (entry_append.trans hentry)
  have hexit' : g.append.append.exit = none := exit_append.trans (exit_append.trans hexit)
  rw [addSentinels, exec_bind_of_ok (exec_get g), hentry, hexit]
  refine ⟨_, (exec_bind_of_ok exec_addBlock_nil).trans <|
    (exec_bind_of_ok exec_addBlock_nil).trans <|
    (exec_bind_of_ok (exec_designate .entry hfirst hentry')).trans <|
    exec_bind_of_ok (exec_designate .exit ?_ ?_)⟩
  · exact live_invalidate.mpr (live_update.mpr hsecond)
  · exact (SameRoles.invalidate _).exit.trans hexit'

theorem atomicAt_addSentinels : AtomicAt g addSentinels := by
  cases hentry : g.entry with
  | some b => exact .get_bind (by rw [hentry]; exact .throw _)
  | none =>
      cases hexit : g.exit with
      | some b => exact .get_bind (by rw [hentry, hexit]; exact .throw _)
      | none =>
          obtain ⟨g', h⟩ := exists_addSentinels hentry hexit
          exact .of_ok h

theorem atomicAt_bypass (hg : Consistent g) : AtomicAt g (bypass b) := by
  by_cases hb : g.Live b
  · by_cases hs : ∃ s, g.Bypassable b s
    · obtain ⟨s, hs⟩ := hs
      obtain ⟨k, hk, -⟩ := exists_bypassed hg hs
      exact .of_ok hk
    · exact .of_ok (exec_bypass_of_not_bypassable hg hb (not_exists.mp hs))
  · exact .requireLive_bind fun x hx => absurd ⟨x, hx⟩ hb

theorem atomicAt_bypassAll (hg : Consistent g) : AtomicAt g bypassAll := by
  obtain ⟨n, g', h, -⟩ := exists_bypassAll hg
  exact .of_ok h

theorem atomicAt_prune (hg : Consistent g) : AtomicAt g prune := by
  cases hentry : g.entry with
  | none => exact .get_bind (by rw [hentry]; exact .throw _)
  | some entry =>
      obtain ⟨ds, g', h, -⟩ := exists_pruned hg hentry
      exact .of_ok h

theorem atomicAt_layout : AtomicAt g layout := by
  refine .get_bind ?_
  cases g.layout with
  | some l => exact .of_ok (exec_pure l g)
  | none =>
      cases hl : g.arrange with
      | error x => exact .bind_of_error rfl
      | ok l => exact .of_ok (exec_bind_of_ok rfl)

def silent (e : Edit π α) : Edit π Unit := do
  let _ ← e

theorem exec_silent_snd (e : Edit π α) : (e.silent.exec g).2 = (e.exec g).2 := by
  rw [silent, exec_bind]
  split
  · rename_i heq
    rw [heq]
    rfl
  · rename_i heq
    rw [heq]

theorem AtomicAt.silent {e : Edit π α} (h : AtomicAt g e) : AtomicAt g e.silent := by
  cases hr : (e.exec g).1 with
  | error x => exact .bind_of_error (h x hr)
  | ok a => exact .of_ok (exec_bind_of_ok (Prod.ext hr rfl))

end Edit

namespace Command

def run : Command π → Edit π Unit
  | addBlock preds => (Edit.addBlock preds).silent
  | connectTo b targets => Edit.connectTo b targets
  | connectFrom b sources => Edit.connectFrom b sources
  | addArm arm b => (Edit.addArm arm b).silent
  | setArm arm b target => Edit.setArm arm b target
  | designate s b => Edit.designate s b
  | markTest b => Edit.markTest b
  | addSentinels => Edit.addSentinels.silent
  | addNode b node => Edit.addNode b node
  | setPasses p => Edit.setPasses p
  | redirectSuccessor b old new => Edit.redirectSuccessor b old new
  | redirectPredecessor b old new => Edit.redirectPredecessor b old new
  | bypass b => (Edit.bypass b).silent
  | bypassAll => Edit.bypassAll.silent
  | prune => Edit.prune.silent
  | removeBlock b => Edit.removeBlock b
  | removeEdge u v => (Edit.removeEdge u v).silent
  | analyze => Edit.analyze
  | layout => Edit.layout.silent

theorem exec_run_snd (c : Command π) : (c.run.exec g).2 = c.apply g := by
  cases c <;> first | rfl | exact Edit.exec_silent_snd _

open Edit in
def stepwise : Command π → Edit π Unit
  | addBlock preds => (Stepwise.addBlock preds).silent
  | connectTo b targets => Stepwise.connectTo b targets
  | connectFrom b sources => Stepwise.connectFrom b sources
  | addArm arm b => (Stepwise.addArm arm b).silent
  | setArm arm b target => Stepwise.setArm arm b target
  | designate s b => Stepwise.designate s b
  | addSentinels => Stepwise.addSentinels.silent
  | redirectSuccessor b old new => Stepwise.redirectSuccessor b old new
  | redirectPredecessor b old new => Stepwise.redirectPredecessor b old new
  | bypass b => (Stepwise.bypass b).silent
  | bypassAll => Stepwise.bypassAll.silent
  -- the others look no block up once they have changed something
  | c => c.run

theorem stepwise_eq_run (c : Command π) : c.stepwise = c.run := by
  cases c with
  | addBlock preds => rw [stepwise, Edit.Stepwise.addBlock_eq, run]
  | connectTo b targets => rw [stepwise, Edit.Stepwise.connectTo_eq, run]
  | connectFrom b sources => rw [stepwise, Edit.Stepwise.connectFrom_eq, run]
  | addArm arm b => rw [stepwise, Edit.Stepwise.addArm_eq, run]
  | setArm arm b target => rw [stepwise, Edit.Stepwise.setArm_eq, run]
  | designate s b => rw [stepwise, Edit.Stepwise.designate_eq, run]
  | addSentinels => rw [stepwise, Edit.Stepwise.addSentinels_eq, run]
  | redirectSuccessor b old new => rw [stepwise, Edit.Stepwise.redirectSuccessor_eq, run]
  | redirectPredecessor b old new => rw [stepwise, Edit.Stepwise.redirectPredecessor_eq, run]
  | bypass b => rw [stepwise, Edit.Stepwise.bypass_eq, run]
  | bypassAll => rw [stepwise, Edit.Stepwise.bypassAll_eq, run]
  | _ => rfl

theorem atomicAt_run (hg : Consistent g) (c : Command π) (hc : c ≠ .analyze) :
    Edit.AtomicAt g c.run := by
  cases c with
  | addBlock preds => exact Edit.atomicAt_addBlock.silent
  | connectTo b targets => exact .requireAll_bind fun _ => .of_ok (Edit.exec_modify _ g)
  | connectFrom b sources => exact .requireAll_bind fun _ => .of_ok (Edit.exec_modify _ g)
  | addArm arm b => exact (Edit.atomicAt_addArm arm).silent
  | setArm arm b target => exact .requireAll_bind fun _ => .of_ok (Edit.exec_modify _ g)
  | designate s b => exact Edit.atomicAt_designate s
  | markTest b => exact .requireAll_bind fun _ => .of_ok (Edit.exec_modify _ g)
  | addSentinels => exact Edit.atomicAt_addSentinels.silent
  | addNode b node => exact .requireAll_bind fun _ => .of_ok (Edit.exec_modify _ g)
  | setPasses p => exact .of_ok (Edit.exec_modify _ g)
  | redirectSuccessor b old new => exact .redirect (·.succs.contains old) _
  | redirectPredecessor b old new => exact .redirect (·.preds.contains old) _
  | bypass b => exact (Edit.atomicAt_bypass hg).silent
  | bypassAll => exact (Edit.atomicAt_bypassAll hg).silent
  | prune => exact (Edit.atomicAt_prune hg).silent
  | removeBlock b => exact .requireLive_bind fun x _ => .of_ok (Edit.exec_modify _ g)
  | removeEdge u v => exact .of_ok (Edit.exec_bind_of_ok (Edit.exec_modifyGet _ g))
  | analyze => exact absurd rfl hc
  | layout => exact Edit.atomicAt_layout.silent

end Command

namespace Flowgraph

theorem refused_unchanged_after (passes : Passes) (cs : List (Command π)) (c : Command π)
    (hc : c ≠ .analyze) (x : Fault) (hx : (c.stepwise.exec (after passes cs)).1 = .error x) :
    c.stepwise.exec (after passes cs) = (.error x, after passes cs) ∧
      c.run.exec (after passes cs) = (.error x, after passes cs) ∧
      c.apply (after passes cs) = after passes cs := by
  rw [c.stepwise_eq_run] at hx ⊢
  have hrun := c.atomicAt_run (consistent_after passes cs) hc x hx
  refine ⟨hrun, hrun, ?_⟩
  rw [← c.exec_run_snd, hrun]

theorem refused_unchanged_strandedHistory :
    (.setArm .onTrue 2 4 : Command Nat) ≠ .analyze ∧
      let g := after .usual (strandedHistory ++ [.prune])
      let c : Command Nat := .setArm .onTrue 2 4
      (c.stepwise.exec g).1 = .error (.unknownBlock 4) ∧
        c.stepwise.exec g = (.error (.unknownBlock 4), g) ∧
        c.run.exec g = (.error (.unknownBlock 4), g) ∧ c.apply g = g := by
  have hc : (.setArm .onTrue 2 4 : Command Nat) ≠ .analyze := nofun
  have hx : ((Command.setArm .onTrue 2 4).stepwise.exec
      (after .usual (strandedHistory ++ [.prune]))).1 = .error (.unknownBlock 4) := by cbv
  exact ⟨hc, hx, refused_unchanged_after .usual _ _ hc _ hx⟩

end Flowgraph

end ControlFlow

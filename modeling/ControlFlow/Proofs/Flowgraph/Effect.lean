import ControlFlow.Proofs.Flowgraph.Atomic
import ControlFlow.Proofs.Flowgraph.Order
import ControlFlow.Proofs.Flowgraph.Shape

namespace ControlFlow

open Flowgraph

variable {π : Type} {b c u v : BlockId} {f : Shape → Shape} {g g' : Flowgraph π}

namespace Flowgraph

theorem size_invalidate : g.invalidate.blocks.size = g.blocks.size :=
  (SameRoles.invalidate g).size

theorem size_update {k : Block π → Block π} : (g.update b k).blocks.size = g.blocks.size :=
  Array.size_modify

theorem size_link {flow : Flow} : (g.link u v flow).blocks.size = g.blocks.size := by
  rw [link]
  split
  · rfl
  · exact size_invalidate.trans (size_update.trans size_update)

theorem size_demote (o : Option BlockId) : (g.demote b o c).blocks.size = g.blocks.size := by
  obtain ⟨E, h, -⟩ := exists_demote (g := g) (b := b) (t := c) o
  rw [h]

theorem size_aim (arm : Arm) : (g.aim b arm c).blocks.size = g.blocks.size :=
  size_invalidate.trans (size_update.trans (size_link.trans (size_demote _)))

theorem size_designate (s : Sentinel) : (g.designate s b).blocks.size = g.blocks.size := by
  obtain ⟨entry, exit, h⟩ := exists_name (g := g) s b
  rw [designate, h]
  exact size_invalidate.trans size_update

theorem size_removeEdge : (g.removeEdge u v).blocks.size = g.blocks.size :=
  (SameRoles.invalidate _).size.trans (size_update.trans size_update)

theorem size_redirectPredecessor {old new : BlockId} :
    (g.redirectPredecessor b old new).blocks.size = g.blocks.size :=
  (SameRoles.invalidate _).size.trans (size_update.trans (size_update.trans size_update))

theorem size_le_lasting (n : Nat) : Lasting fun g : Flowgraph π => n ≤ g.blocks.size := by
  intro g g' hchange h
  cases hchange with
  | plain hplain =>
      cases hplain with
      | append =>
          have hsize : g.append.blocks.size = g.blocks.size + 1 :=
            (size_invalidate (g := g.grow)).trans (Array.size_push ..)
          exact h.trans (hsize ▸ Nat.le_succ _)
      | link _ _ => exact h.trans_eq size_link.symm
      | designate s _ _ => exact h.trans_eq (size_designate s).symm
      | test => simpa only [size_invalidate, size_update] using h
      | push => exact h.trans_eq size_update.symm
      | passes => simpa only [size_invalidate] using h
      | remove _ => exact h.trans_eq (size_remove _).symm
      | removeEdge _ => exact h.trans_eq size_removeEdge.symm
      | invalidate => exact h.trans_eq size_invalidate.symm
      | record _ _ _ _ => exact h.trans_eq sameRoles_record.size.symm
      | arrange _ => exact h
  | aim arm _ _ => exact h.trans_eq (size_aim arm).symm
  | redirectSuccessor _ _ _ => exact h.trans_eq sameRoles_redirectSuccessor.size.symm
  | redirectPredecessor _ _ _ => exact h.trans_eq size_redirectPredecessor.symm

theorem size_after_le (passes : Passes) {ds cs : List (Command π)} (h : ds <+: cs) :
    (after passes ds).blocks.size ≤ (after passes cs).blocks.size := by
  obtain ⟨es, rfl⟩ := h
  have hfold : after passes (ds ++ es) = es.foldl Command.apply (after passes ds) :=
    List.foldl_append
  rw [hfold]
  exact (keeps_foldl (size_le_lasting _) ⟨le_refl _, consistent_after passes ds⟩ es).1

/-- From `g` to `g'` the sets of blocks and edges change as `f` says, what stays in a list keeps its
order, and the payload that a block gains is as given. -/
structure Performs (f : Shape → Shape) (pushed : BlockId → List π) (g g' : Flowgraph π) : Prop where
  before : g.Shows g.shape
  after : g'.Shows (f g.shape)
  orderly : g.Orderly g'
  nodes : ∀ b, g'.Live b → g'.nodesOf b = g.nodesOf b ++ pushed b

theorem Performs.of_nodes (hg : Consistent g) (hg' : Consistent g') (hshape : g'.shape = f g.shape)
    (horderly : g.Orderly g') (hnodes : ∀ b, g'.Live b → g'.nodesOf b = g.nodesOf b) :
    Performs f (fun _ => []) g g' where
  before := hg.shows
  after := hshape ▸ hg'.shows
  orderly := horderly
  nodes b hb := by rw [hnodes b hb, List.append_nil]

theorem Performs.grown (hg : Consistent g) (hg' : Consistent g') (hshape : g'.shape = f g.shape)
    (hthin : g'.Thinned g) (hnodes : g'.nodesOf = g.nodesOf) : Performs f (fun _ => []) g g' :=
  .of_nodes hg hg' hshape (hthin.orderly hg').symm fun b _ => congrFun hnodes b

theorem Performs.same (hg : Consistent g) (hshape : g.shape = f g.shape) :
    Performs f (fun _ => []) g g :=
  .grown hg hg hshape (.refl g) rfl

theorem Performs.marked (entry exit : Option BlockId) {k : Block π → Block π} (hg : Consistent g)
    (hg' : Consistent (Flowgraph.update { g with entry, exit } b k).invalidate)
    (hsuccs : ∀ x, (k x).succs = x.succs) (hpreds : ∀ x, (k x).preds = x.preds)
    (hnodes : ∀ x, (k x).nodes = x.nodes) :
    Performs id (fun _ => []) g (Flowgraph.update { g with entry, exit } b k).invalidate := by
  refine .grown hg hg' (shape_invalidate.trans shape_update) ?_
    (nodesOf_invalidate.trans (nodesOf_update hnodes))
  refine .trans thinned_of_invalidate (thinned_of_update ?_ ?_)
  · exact fun x => hsuccs x ▸ .refl _
  · exact fun x => hpreds x ▸ .refl _

end Flowgraph

namespace Edit

variable {bs : List BlockId} {old new target : BlockId}

theorem performs_addBlock (hg : Consistent g) (hlive : ∀ p ∈ bs, g.Live p) :
    Performs (fun S => (S.addVertex g.blocks.size).addEdges (bs.map (·, g.blocks.size)))
      (fun _ => []) g ((addBlock bs).exec g).2 := by
  have hg' : Consistent ((addBlock bs).exec g).2 := keeps_addBlock Consistent.steady bs g hg
  rw [exec_addBlock hlive] at hg' ⊢
  refine .grown hg hg' ?_ ((thinned_foldl_link bs id _).trans thinned_append)
    ((nodesOf_foldl_link bs id _).trans nodesOf_append)
  rw [← shape_append]
  exact shape_foldl_link bs id fun _ => g.blocks.size

theorem performs_foldl_link (hg : Consistent g) (s t : BlockId → BlockId)
    (hlive : ∀ b ∈ bs, g.Live (s b) ∧ g.Live (t b)) :
    Performs (·.addEdges (bs.map fun b => (s b, t b))) (fun _ => []) g
      (bs.foldl (fun g b => g.link (s b) (t b) .unconditional) g) :=
  .grown hg (foldl_link Consistent.steady s t hlive hg) (shape_foldl_link bs s t)
    (thinned_foldl_link bs s t) (nodesOf_foldl_link bs s t)

theorem performs_connectTo (hg : Consistent g) (hlive : ∀ c ∈ b :: bs, g.Live c) :
    Performs (·.addEdges (bs.map (b, ·))) (fun _ => []) g ((connectTo b bs).exec g).2 := by
  rw [connectTo, exec_bind_of_ok (exec_requireAll_of_live hlive), exec_modify]
  refine performs_foldl_link hg (fun _ => b) id fun c hc => ?_
  exact ⟨hlive b List.mem_cons_self, hlive c (List.mem_cons_of_mem _ hc)⟩

theorem performs_connectFrom (hg : Consistent g) (hlive : ∀ c ∈ b :: bs, g.Live c) :
    Performs (·.addEdges (bs.map (·, b))) (fun _ => []) g ((connectFrom b bs).exec g).2 := by
  rw [connectFrom, exec_bind_of_ok (exec_requireAll_of_live hlive), exec_modify]
  refine performs_foldl_link hg id (fun _ => b) fun c hc => ?_
  exact ⟨hlive c (List.mem_cons_of_mem _ hc), hlive b List.mem_cons_self⟩

theorem performs_setArm (hg : Consistent g) (arm : Arm) (htarget : g.Live target) (hb : g.Live b) :
    Performs (·.addEdges [(b, target)]) (fun _ => []) g ((setArm arm b target).exec g).2 := by
  rw [exec_setArm arm htarget hb]
  exact .grown hg (hg.aim arm hb htarget) (shape_aim arm) (thinned_aim arm) (nodesOf_aim arm)

theorem performs_addArm (hg : Consistent g) (arm : Arm) (hb : g.Live b) :
    Performs (fun S => (S.addVertex g.blocks.size).addEdges [(b, g.blocks.size)]) (fun _ => []) g
      ((addArm arm b).exec g).2 := by
  rw [exec_addArm arm hb]
  refine .grown hg (hg.append.aim arm ?_ ?_) ?_ ((thinned_aim arm).trans thinned_append)
    ((nodesOf_aim arm).trans nodesOf_append)
  · exact live_append.mpr (.inr hb)
  · exact live_append.mpr (.inl rfl)
  · rw [shape_aim, shape_append]

theorem performs_designate (s : Sentinel) (hg : Consistent g) (hb : g.Live b) :
    Performs id (fun _ => []) g ((designate s b).exec g).2 := by
  have hg' : Consistent ((designate s b).exec g).2 := keeps_designate Consistent.steady s b g hg
  obtain ⟨entry, exit, hname⟩ := exists_name (g := g) s b
  rw [designate, exec_bind_of_ok (exec_requireAll_of_live (by simpa using hb)),
    exec_bind_of_ok (exec_get g)] at hg' ⊢
  cases hc : (g.sentinel? s).filter (· != b) with
  | some c => exact .same hg rfl
  | none =>
      rw [hc] at hg'
      dsimp only at hg' ⊢
      rw [exec_modify, Flowgraph.designate, hname] at hg' ⊢
      exact .marked entry exit hg hg' (fun x => x.succs_mark) (fun x => x.preds_mark)
        fun x => x.nodes_mark

theorem performs_markTest (hg : Consistent g) (hb : g.Live b) :
    Performs id (fun _ => []) g ((markTest b).exec g).2 := by
  have hg' : Consistent ((markTest b).exec g).2 := keeps_markTest Consistent.steady b g hg
  rw [markTest, exec_bind_of_ok (exec_requireAll_of_live (by simpa using hb)), exec_modify] at hg' ⊢
  exact .marked g.entry g.exit hg hg' (fun _ => rfl) (fun _ => rfl)
    fun _ => rfl

theorem performs_addNode (hg : Consistent g) (node : π) (hb : g.Live b) :
    Performs id (fun c => if b = c then [node] else []) g ((addNode b node).exec g).2 := by
  have hg' : Consistent ((addNode b node).exec g).2 := keeps_addNode Consistent.steady b node g hg
  rw [addNode, exec_bind_of_ok (exec_requireAll_of_live (by simpa using hb)), exec_modify] at hg' ⊢
  refine ⟨hg.shows, shape_update (g := g) ▸ hg'.shows, ?_, fun c _ => nodesOf_push node hb⟩
  refine (Thinned.orderly (thinned_of_update ?_ ?_) hg').symm
  · exact fun _ => .refl _
  · exact fun _ => .refl _

theorem performs_setPasses (hg : Consistent g) (p : Passes) :
    Performs id (fun _ => []) g ((setPasses p).exec g).2 :=
  .grown hg (keeps_setPasses Consistent.steady p g hg)
    (shape_invalidate (g := { g with passes := p }))
    (thinned_of_invalidate (g := { g with passes := p })) nodesOf_invalidate

theorem performs_redirectSuccessor (hg : Consistent g) (hnew : g.Live new) :
    Performs (·.turn (b, old) (b, new)) (fun _ => []) g
      ((redirectSuccessor b old new).exec g).2 := by
  rw [exec_redirectSuccessor_snd]
  by_cases h : old ≠ new ∧ old ∈ g.succs b
  · rw [if_pos ⟨hnew, h⟩]
    exact .of_nodes hg (hg.redirectSuccessor h.2 h.1 hnew)
      (shape_redirectSuccessor (hg.mem_succs_iff.mp h.2) h.1)
      (hg.orderly_redirectSuccessor h.2 h.1 hnew) fun c _ => congrFun nodesOf_redirectSuccessor c
  · rw [if_neg fun h' => h h'.2]
    refine .same hg (Shape.turn_of_not fun h' => h ⟨?_, hg.mem_succs_iff.mpr h'.1⟩).symm
    exact fun heq => h'.2 (heq ▸ rfl)

theorem performs_redirectPredecessor (hg : Consistent g) (hnew : g.Live new) :
    Performs (·.turn (old, b) (new, b)) (fun _ => []) g
      ((redirectPredecessor b old new).exec g).2 := by
  rw [exec_redirectPredecessor_snd]
  by_cases h : old ≠ new ∧ old ∈ g.preds b
  · rw [if_pos ⟨hnew, h⟩]
    exact .of_nodes hg (hg.redirectPredecessor h.2 h.1 hnew)
      (shape_redirectPredecessor (hg.mem_preds_iff.mp h.2) h.1)
      (hg.orderly_redirectPredecessor h.2 h.1 hnew)
      fun c _ => congrFun nodesOf_redirectPredecessor c
  · rw [if_neg fun h' => h h'.2]
    refine .same hg (Shape.turn_of_not fun h' => h ⟨?_, hg.mem_preds_iff.mpr h'.1⟩).symm
    exact fun heq => h'.2 (heq ▸ rfl)

theorem performs_removeBlock (hg : Consistent g) (hb : g.Live b) :
    Performs (·.removeVertex b) (fun _ => []) g ((removeBlock b).exec g).2 := by
  obtain ⟨x, hx⟩ := hb
  rw [exec_removeBlock hx]
  refine .of_nodes hg (hg.remove hx) (hg.shape_remove hx) ((thinned_remove x).orderly hg)
    fun c hc => ?_
  exact nodesOf_remove (live_remove.mp hc).1

theorem performs_removeEdge (hg : Consistent g) (u v : BlockId) :
    Performs (·.removeEdge (u, v)) (fun _ => []) g ((removeEdge u v).exec g).2 := by
  rw [removeEdge, exec_modifyGet]
  by_cases huv : v ∈ g.succs u
  · rw [if_pos huv]
    exact .of_nodes hg (hg.removeEdge u v) shape_removeEdge (thinned_removeEdge.orderly hg)
      fun c _ => congrFun nodesOf_removeEdge c
  · rw [if_neg huv]
    exact .same hg (Shape.removeEdge_of_not_mem fun h => huv (hg.mem_succs_iff.mpr h)).symm

end Edit

namespace Command

noncomputable def effect? (fresh : BlockId) : Command π → Option (Shape → Shape)
  | addBlock preds => some fun S => (S.addVertex fresh).addEdges (preds.map (·, fresh))
  | connectTo b targets => some (·.addEdges (targets.map (b, ·)))
  | connectFrom b sources => some (·.addEdges (sources.map (·, b)))
  | addArm _ b => some fun S => (S.addVertex fresh).addEdges [(b, fresh)]
  | setArm _ b target => some (·.addEdges [(b, target)])
  | designate _ _ | markTest _ | addNode _ _ | setPasses _ => some id
  | redirectSuccessor b old new => some (·.turn (b, old) (b, new))
  | redirectPredecessor b old new => some (·.turn (old, b) (new, b))
  | removeBlock b => some (·.removeVertex b)
  | removeEdge u v => some (·.removeEdge (u, v))
  | addSentinels | bypass _ | bypassAll | prune | analyze | layout => none

def needs : Command π → List BlockId
  | addBlock preds => preds
  | connectTo b targets => b :: targets
  | connectFrom b sources => b :: sources
  | setArm _ b target => [target, b]
  | addArm _ b | designate _ b | markTest b | addNode b _ | removeBlock b => [b]
  | redirectSuccessor b _ new | redirectPredecessor b _ new => [new, b]
  | _ => []

def pushed : Command π → BlockId → List π
  | addNode b node, c => if b = c then [node] else []
  | _, _ => []

theorem performs (hg : Consistent g) (c : Command π) (hf : c.effect? g.blocks.size = some f)
    (hlive : ∀ b ∈ c.needs, g.Live b) : Performs f c.pushed g (c.apply g) := by
  cases c with
  | addBlock preds => cases hf; exact Edit.performs_addBlock hg hlive
  | connectTo b targets => cases hf; exact Edit.performs_connectTo hg hlive
  | connectFrom b sources => cases hf; exact Edit.performs_connectFrom hg hlive
  | addArm arm b => cases hf; exact Edit.performs_addArm hg arm (hlive b (by simp [needs]))
  | setArm arm b target =>
      cases hf
      exact Edit.performs_setArm hg arm (hlive target (by simp [needs])) (hlive b (by simp [needs]))
  | designate s b => cases hf; exact Edit.performs_designate s hg (hlive b (by simp [needs]))
  | markTest b => cases hf; exact Edit.performs_markTest hg (hlive b (by simp [needs]))
  | addNode b node => cases hf; exact Edit.performs_addNode hg node (hlive b (by simp [needs]))
  | setPasses p => cases hf; exact Edit.performs_setPasses hg p
  | redirectSuccessor b old new =>
      cases hf
      exact Edit.performs_redirectSuccessor hg (hlive new (by simp [needs]))
  | redirectPredecessor b old new =>
      cases hf
      exact Edit.performs_redirectPredecessor hg (hlive new (by simp [needs]))
  | removeBlock b => cases hf; exact Edit.performs_removeBlock hg (hlive b (by simp [needs]))
  | removeEdge u v => cases hf; exact Edit.performs_removeEdge hg u v
  | _ => cases hf

end Command

namespace Flowgraph

theorem edits_refine_after (passes : Passes) (cs : List (Command π)) (c : Command π)
    (hf : c.effect? (after passes cs).blocks.size = some f)
    (hlive : ∀ b ∈ c.needs, (after passes cs).Live b) :
    let g := after passes cs
    Performs f c.pushed g (c.apply g) ∧
      (∀ ps, c = .addBlock ps → ((Edit.addBlock ps).exec g).1 = .ok g.blocks.size) ∧
      (∀ arm b, c = .addArm arm b → ((Edit.addArm arm b).exec g).1 = .ok g.blocks.size) ∧
      (∀ ds, ds <+: cs → ∀ b, (after passes ds).Live b → b < g.blocks.size) ∧
      (∀ b old new, c = .redirectSuccessor b old new → ¬(old ∈ g.succs b ∧ old ≠ new) →
        c.apply g = g) ∧
      ∀ b old new, c = .redirectPredecessor b old new → ¬(old ∈ g.preds b ∧ old ≠ new) →
        c.apply g = g := by
  intro g
  refine ⟨c.performs (consistent_after passes cs) hf hlive, ?_, ?_, ?_, ?_, ?_⟩
  · rintro ps rfl
    have hps : ∀ p ∈ ps, g.Live p := hlive
    exact congrArg Prod.fst (Edit.exec_addBlock hps)
  · rintro arm b rfl
    exact congrArg Prod.fst (Edit.exec_addArm arm (hlive b List.mem_cons_self))
  · intro ds hds b hb
    exact Nat.lt_of_lt_of_le hb.lt_size (size_after_le passes hds)
  · rintro b old new rfl h
    exact Edit.exec_redirectSuccessor_snd.trans (if_neg fun h' => h ⟨h'.2.2, h'.2.1⟩)
  · rintro b old new rfl h
    exact Edit.exec_redirectPredecessor_snd.trans (if_neg fun h' => h ⟨h'.2.2, h'.2.1⟩)

theorem edits_refine_strandedHistory :
    let g := after .usual strandedHistory
    let c : Command Nat := .redirectSuccessor 4 2 3
    c.effect? g.blocks.size = some (·.turn (4, 2) (4, 3)) ∧ (∀ b ∈ c.needs, g.Live b) ∧
      Performs (·.turn (4, 2) (4, 3)) c.pushed g (c.apply g) ∧
      (∀ ds, ds <+: strandedHistory → ∀ b, (after .usual ds).Live b → b < g.blocks.size) ∧
      g.succs 4 = [2, 3, 1] ∧ (c.apply g).succs 4 = [3, 1] := by
  have hf : (Command.redirectSuccessor 4 2 3 : Command Nat).effect?
      (after .usual strandedHistory).blocks.size = some (·.turn (4, 2) (4, 3)) := rfl
  have hlive : ∀ b ∈ (Command.redirectSuccessor 4 2 3 : Command Nat).needs,
      (after .usual strandedHistory).Live b := firstMissing?_eq_none_iff.mp (by cbv)
  have h := edits_refine_after .usual strandedHistory _ hf hlive
  exact ⟨hf, hlive, h.1, h.2.2.2.1, by cbv, by cbv⟩

end Flowgraph

end ControlFlow

import ControlFlow.Proofs.Flowgraph.History
import Mathlib

namespace ControlFlow

variable {π : Type} {b c u v u' v' : BlockId} {r : Results}

namespace Block

theorem marks_addPred (x : Block π) (b : BlockId) : (x.addPred b).marks = x.marks := by
  rw [addPred]
  split <;> rfl

theorem marks_adopt (x : Block π) (b : BlockId) (flow : Flow) :
    (Flowgraph.adopt b flow x).marks = x.marks := by
  have hadd : (x.addSucc b).marks = x.marks := by
    rw [addSucc]
    split <;> rfl
  cases flow <;> exact hadd

theorem marks_mark (x : Block π) (s : Sentinel) : (x.mark s).marks = x.marks := by
  cases s <;> rfl

end Block

namespace Flowgraph

variable {g g' : Flowgraph π} {f : Block π → Block π} {x : Block π}

structure Unmarked (g : Flowgraph π) : Prop where
  marks : ∀ b x, g.block? b = some x → x.marks = none
  kinds : g.edges.Unclassed

theorem Unmarked.update (h : Unmarked g) (hf : ∀ x, (f x).marks = x.marks) :
    Unmarked (g.update b f) := by
  refine ⟨fun c x hx => ?_, h.kinds⟩
  rw [block?_update] at hx
  split at hx
  · obtain ⟨y, hy, rfl⟩ := Option.map_eq_some_iff.mp hx
    rw [hf]
    exact h.marks c y hy
  · exact h.marks c x hx

theorem Unmarked.grow (h : Unmarked g) : Unmarked g.grow := by
  refine ⟨fun c x hx => ?_, h.kinds⟩
  rw [block?_grow] at hx
  split at hx
  · cases hx
    rfl
  · exact h.marks c x hx

theorem Unmarked.vacate (h : Unmarked g) : Unmarked (g.vacate b) := by
  refine ⟨fun c x hx => ?_, h.kinds⟩
  rw [block?_vacate] at hx
  split at hx
  · cases hx
  · exact h.marks c x hx

theorem Unmarked.detach (h : Unmarked g) : Unmarked (g.detach b x) := by
  refine List.foldlRecOn _ _ (List.foldlRecOn _ _ h.vacate ?_) ?_
  · intro k hk s _
    exact hk.update fun _ => rfl
  · intro k hk p _
    exact hk.update fun _ => rfl

def Fresh (g : Flowgraph π) : Prop :=
  g.results = none → Unmarked g

theorem unmarked_invalidate (h : Fresh g) : Unmarked g.invalidate := by
  rw [invalidate]
  cases hr : g.results with
  | none => exact ⟨(h hr).marks, (h hr).kinds⟩
  | some r =>
      refine ⟨fun b x hx => ?_, EdgeIndex.unclassed_clearKinds⟩
      simp only [block?, Array.getElem?_map] at hx
      cases hb : g.blocks[b]? with
      | none => simp [hb] at hx
      | some o =>
          cases o with
          | none => simp [hb] at hx
          | some y =>
              simp only [hb, Option.map_some, Option.join_some, Option.some.injEq] at hx
              rw [← hx]

theorem Fresh.invalidate (h : Fresh g) : Fresh g.invalidate :=
  fun _ => unmarked_invalidate h

theorem Fresh.rewire (k : Flowgraph π) (E : EdgeIndex)
    (h : k.results = none → Unmarked k ∧ E.Unclassed) :
    Fresh (Flowgraph.invalidate { k with edges := E }) :=
  Fresh.invalidate fun hr => ⟨(h hr).1.marks, (h hr).2⟩

theorem Fresh.update (h : Fresh g) (hf : ∀ x, (f x).marks = x.marks) : Fresh (g.update b f) :=
  fun hr => (h hr).update hf

theorem Fresh.name (h : Fresh g) (s : Sentinel) (b : BlockId) : Fresh (g.name s b) := by
  cases s <;> exact fun hr => ⟨(h hr).marks, (h hr).kinds⟩

theorem Fresh.link (h : Fresh g) (u v : BlockId) (flow : Flow) : Fresh (g.link u v flow) := by
  rw [Flowgraph.link]
  split
  · exact h
  · refine Fresh.rewire _ _ fun hr => ⟨((h hr).update ?_).update ?_, (h hr).kinds.setFlow flow⟩
    · exact fun _ => rfl
    · exact fun _ => rfl

theorem Fresh.setFlow (h : Fresh g) (u v : BlockId) (flow : Flow) :
    Fresh { g with edges := g.edges.setFlow u v flow } :=
  fun hr => ⟨(h hr).marks, (h hr).kinds.setFlow flow⟩

theorem Fresh.demote (h : Fresh g) (o : Option BlockId) (t : BlockId) :
    Fresh (g.demote b o t) := by
  cases o with
  | none => exact h
  | some o =>
      rw [Flowgraph.demote]
      split
      · exact h.setFlow b o _
      · exact h

theorem Fresh.aim (h : Fresh g) (arm : Arm) (t : BlockId) : Fresh (g.aim b arm t) := by
  rw [Flowgraph.aim]
  refine Fresh.invalidate (Fresh.update ((Fresh.link (h.demote _ t) b t _).setFlow b t _) ?_)
  intro x
  cases arm <;> rfl

theorem results_detach : (g.detach b x).results = g.results :=
  detach_eq_of (fun _ _ _ => rfl) x

theorem Fresh.remove (h : Fresh g) (b : BlockId) (x : Block π) : Fresh (g.remove b x) := by
  refine Fresh.invalidate fun hr => ?_
  have hg : Unmarked g := h (results_detach.symm.trans hr)
  exact ⟨hg.detach.marks, hg.kinds.eraseAll _⟩

theorem Fresh.steady : Steady (π := π) Fresh := by
  intro g g' hchange h
  cases hchange with
  | append => exact Fresh.invalidate (g := g.grow) fun hr => (h hr).grow
  | link _ _ => exact h.link _ _ _
  | designate s _ _ =>
      refine Fresh.invalidate (Fresh.update (h.name s _) ?_)
      exact fun x => x.marks_mark s
  | test b =>
      refine Fresh.invalidate (h.update ?_)
      exact fun _ => rfl
  | push b node =>
      refine h.update ?_
      exact fun _ => rfl
  | passes p => exact Fresh.invalidate fun hr => ⟨(h hr).marks, (h hr).kinds⟩
  | remove _ => exact h.remove _ _
  | removeEdge _ =>
      refine Fresh.rewire _ _ fun hr => ⟨((h hr).update ?_).update ?_, (h hr).kinds.erase⟩
      · exact fun _ => rfl
      · exact fun _ => rfl
  | invalidate => exact h.invalidate
  | record _ _ _ _ => exact nofun
  | arrange _ => exact fun hr => ⟨(h hr).marks, (h hr).kinds⟩

theorem Fresh.lasting : Lasting (π := π) Fresh := by
  intro g g' hchange h
  cases hchange with
  | plain hplain => exact Fresh.steady g g' hplain h
  | aim arm _ _ => exact h.aim arm _
  | redirectSuccessor _ _ _ =>
      refine Fresh.rewire _ _ fun hr => ⟨(((h hr).update ?_).update ?_).update ?_, ?_⟩
      · exact fun _ => rfl
      · exact fun _ => rfl
      · exact fun x => x.marks_addPred _
      · exact (h hr).kinds.reindex _
  | redirectPredecessor _ _ _ =>
      refine Fresh.rewire _ _ fun hr => ⟨(((h hr).update ?_).update ?_).update ?_, ?_⟩
      · exact fun _ => rfl
      · exact fun _ => rfl
      · exact fun x => x.marks_adopt _ _
      · exact (h hr).kinds.reindex _

section View

theorem succs_eq_of (h : (g'.block? b).map (fun x => (x.succs, x.preds)) =
    (g.block? b).map fun x => (x.succs, x.preds)) : g'.succs b = g.succs b := by
  have hsuccs := congrArg (fun o => (o.map fun p => p.1.toList).getD []) h
  simp only [Option.map_map] at hsuccs
  exact hsuccs

theorem preds_eq_of (h : (g'.block? b).map (fun x => (x.succs, x.preds)) =
    (g.block? b).map fun x => (x.succs, x.preds)) : g'.preds b = g.preds b := by
  have hpreds := congrArg (fun o => (o.map fun p => p.2.toList).getD []) h
  simp only [Option.map_map] at hpreds
  exact hpreds

theorem view_eq_of (hsize : g'.blocks.size = g.blocks.size)
    (h : ∀ b, (g'.block? b).map (fun x => (x.succs, x.preds)) =
      (g.block? b).map fun x => (x.succs, x.preds)) : g'.view = g.view := by
  rw [view, view, View.mk.injEq]
  refine ⟨hsize, funext fun b => ?_, funext fun b => succs_eq_of (h b),
    funext fun b => preds_eq_of (h b)⟩
  have huse := congrArg Option.isSome (h b)
  rwa [Option.isSome_map, Option.isSome_map] at huse

theorem view_record : (g.record r).view = g.view := by
  refine view_eq_of Array.size_mapIdx fun b => ?_
  rw [block?_record, Option.map_map]
  rfl

theorem view_push {node : π} : (g.update b (·.push node)).view = g.view := by
  refine view_eq_of Array.size_modify fun c => ?_
  rw [block?_update]
  split
  · rw [Option.map_map]
    rfl
  · rfl

theorem compute_eq_of {entry exit : BlockId} (hview : g'.view = g.view)
    (hpasses : g'.passes = g.passes) : g'.compute entry exit = g.compute entry exit := by
  rw [compute, compute, hview, hpasses]

end View

structure Recorded (g : Flowgraph π) (r : Results) : Prop where
  compute : ∃ entry exit, g.entry = some entry ∧ g.exit = some exit ∧ g.compute entry exit = .ok r
  marks : ∀ b x, g.block? b = some x → x.marks = marksOf r b
  kinds : ∀ u v l, g.edges.label? u v = some l → ∀ k, l.kind = some k ↔ ⟨u, v, k⟩ ∈ r.numbering.crossings

theorem Recorded.push (h : Recorded g r) (b : BlockId) (node : π) :
    Recorded (g.update b (·.push node)) r := by
  obtain ⟨entry, exit, hentry, hexit, hr⟩ := h.compute
  refine ⟨⟨entry, exit, hentry, hexit, (compute_eq_of view_push rfl).trans hr⟩, ?_, h.kinds⟩
  intro c x hx
  rw [block?_update] at hx
  split at hx
  · obtain ⟨y, hy, rfl⟩ := Option.map_eq_some_iff.mp hx
    exact h.marks c y hy
  · exact h.marks c x hx

theorem Consistent.recorded (h : Consistent g) (hg : Unmarked g) {entry exit : BlockId}
    (hentry : g.entry = some entry) (hexit : g.exit = some exit)
    (hr : g.compute entry exit = .ok r) : Recorded (g.record r) r := by
  refine ⟨⟨entry, exit, hentry, hexit, (compute_eq_of view_record rfl).trans hr⟩, ?_, ?_⟩
  · intro b x hx
    rw [block?_record, Option.map_eq_some_iff] at hx
    obtain ⟨y, hy, rfl⟩ := hx
    -- a block that is not numbered keeps its marks, and has none
    dsimp only
    rw [hg.marks b y hy, Option.or_none]
  · intro u v l hl k
    have hfin := h.finished (h.entry.live hentry) hr
    rw [edges_record] at hl
    rcases EdgeIndex.kind_foldl_setKind _ hl with ⟨c, hc, hmem⟩ | ⟨hnone, l', hl', hkind⟩
    · rw [hc, Option.some.injEq]
      rw [Array.mem_toList_iff] at hmem
      constructor
      · rintro rfl
        exact hmem
      · exact fun hk => hfin.kind_unique (h.nodup_succs u) hmem hk
    · rw [← hkind, hg.kinds u v l' hl']
      simpa using fun hk => hnone k (Array.mem_toList_iff.mpr hk)

structure Faithful (g : Flowgraph π) : Prop where
  fresh : Fresh g
  recorded : ∀ r, g.results = some r → Recorded g r

theorem Faithful.of_invalidate (h : Fresh g.invalidate) : Faithful g.invalidate where
  fresh := h
  recorded r hr := by
    have hdirty := isDirty_invalidate g
    rw [isDirty, hr] at hdirty
    cases hdirty

theorem Faithful.steady : Steady fun g : Flowgraph π => Faithful g ∧ Consistent g := by
  rintro g g' hchange ⟨h, hcons⟩
  have hfresh := Fresh.steady g g' hchange h.fresh
  refine ⟨?_, Consistent.steady g g' hchange hcons⟩
  cases hchange with
  | append => exact .of_invalidate hfresh
  | @link u v _ _ =>
      rw [link] at hfresh ⊢
      split at hfresh
      · rename_i huv
        rwa [if_pos huv]
      · rename_i huv
        rw [if_neg huv]
        exact .of_invalidate hfresh
  | designate => exact .of_invalidate hfresh
  | test => exact .of_invalidate hfresh
  | push b node => exact ⟨hfresh, fun r hr => (h.recorded r hr).push b node⟩
  | passes => exact .of_invalidate hfresh
  | remove => exact .of_invalidate hfresh
  | removeEdge => exact .of_invalidate hfresh
  | invalidate => exact .of_invalidate hfresh
  | record hdirty hentry hexit hr =>
      refine ⟨hfresh, fun r' hr' => ?_⟩
      cases hr'
      exact hcons.recorded (h.fresh (Option.isNone_iff_eq_none.mp hdirty)) hentry hexit hr
  | arrange => exact ⟨hfresh, fun r hr => ⟨(h.recorded r hr).compute, (h.recorded r hr).marks,
      (h.recorded r hr).kinds⟩⟩

theorem Faithful.lasting : Lasting fun g : Flowgraph π => Faithful g ∧ Consistent g := by
  intro g g' hchange hg
  have hfresh := Fresh.lasting g g' hchange hg.1.fresh
  have hcons := Consistent.lasting g g' hchange hg.2
  cases hchange with
  | plain hplain => exact Faithful.steady g g' hplain hg
  | aim => exact ⟨.of_invalidate hfresh, hcons⟩
  | redirectSuccessor => exact ⟨.of_invalidate hfresh, hcons⟩
  | redirectPredecessor => exact ⟨.of_invalidate hfresh, hcons⟩

theorem faithful_empty (passes : Passes) : Faithful (empty passes : Flowgraph π) where
  fresh _ := ⟨fun b x hx => by simp [block?, empty] at hx, fun u v l hl => by simp [empty] at hl⟩
  recorded r hr := by cases hr

theorem faithful_after (passes : Passes) (cs : List (Command π)) : Faithful (after passes cs) :=
  (keeps_after Faithful.lasting passes ⟨faithful_empty passes, consistent_empty passes⟩ cs).1.1

/-- Whatever was done to a graph, either the results it keeps are what an analysis would find now,
in its tables as in its blocks and edges, or it keeps nothing of them anywhere. -/
theorem results_current_after (passes : Passes) (cs : List (Command π)) :
    let g := after passes cs
    (g.isDirty = false → ∃ entry exit N t, g.entry = some entry ∧ g.exit = some exit ∧
      g.numbering? = some N ∧ g.view.number entry = .ok N ∧
      g.dominators? = .ok t ∧ g.view.dominators N = .ok t ∧
      (if g.passes.postDominators then
        ∃ p, g.postDominators? = some p ∧ g.view.postDominators exit = .ok p
      else g.postDominators? = none) ∧
      (∀ b x, g.block? b = some x →
        (N.contains b = true → ∃ m, x.marks = some m ∧
          N.pre? b = some m.pre ∧ N.post? b = some m.post ∧ N.rpost? b = some m.rpost ∧
          m.parent = N.parent? b ∧ m.semi = t.semi? b ∧ m.idom = t.idom? b ∧
          m.children = t.kidsOf b) ∧
        (N.contains b = false → x.marks = none)) ∧
      ∀ u v l, g.edges.label? u v = some l →
        (g.view.Reaches entry u →
          ∃ k, l.kind = some k ∧ ∀ c, ⟨u, v, c⟩ ∈ N.crossings ↔ c = k) ∧
        (¬g.view.Reaches entry u → l.kind = none)) ∧
    (g.isDirty = true → g.numbering? = none ∧ g.postDominators? = none ∧
      g.dominators? = .error .notAnalyzed ∧ (∀ b x, g.block? b = some x → x.marks = none) ∧
      ∀ u v l, g.edges.label? u v = some l → l.kind = none) := by
  intro g
  have hcons : Consistent g := consistent_after passes cs
  have hg : Faithful g := faithful_after passes cs
  constructor
  · intro hclean
    obtain ⟨r, hr⟩ : ∃ r, g.results = some r := by
      rw [isDirty, Option.isNone_eq_false_iff, Option.isSome_iff_exists] at hclean
      exact hclean
    have hrec := hg.recorded r hr
    obtain ⟨entry, exit, hentry, hexit, hcompute⟩ := hrec.compute
    obtain ⟨hN, ht, hpost⟩ := compute_ok hcompute
    have hfin := hcons.finished (hcons.entry.live hentry) hcompute
    refine ⟨entry, exit, r.numbering, r.dominators, hentry, hexit, ?_, hN, ?_, ht, ?_, ?_, ?_⟩
    · rw [numbering?, hr, Option.map_some]
    · rw [dominators?, treeOr, hr]
    · rw [postDominators?, hr, Option.bind_some]
      exact hpost
    · intro b x hx
      rw [hrec.marks b x hx]
      exact ⟨marksOf_of_contains hfin, marksOf_of_not_contains⟩
    · intro u v l hl
      have hkind := hrec.kinds u v l hl
      constructor
      · intro hu
        have huv : g.view.Step u v := by
          rw [hcons.step_iff, EdgeIndex.Holds, EdgeIndex.contains, hl, Option.isSome_some]
        obtain ⟨k, hk⟩ := hfin.exists_crossing hu huv
        refine ⟨k, (hkind k).mpr hk, fun c => ?_⟩
        rw [← hkind c, (hkind k).mpr hk, Option.some.injEq, eq_comm]
      · intro hu
        rw [Option.eq_none_iff_forall_ne_some]
        exact fun k hk => hu (hfin.step_of_mem ((hkind k).mp hk)).1
  · intro hdirty
    have hnone : g.results = none := Option.isNone_iff_eq_none.mp hdirty
    have hclean := hg.fresh hnone
    refine ⟨?_, ?_, ?_, hclean.marks, hclean.kinds⟩
    · rw [numbering?, hnone, Option.map_none]
    · rw [postDominators?, hnone, Option.bind_none]
    · rw [dominators?, treeOr, hnone]

def loopHistory : List (Command Nat) :=
  [.setPasses ⟨true, false, true, true⟩, .addSentinels, .addBlock [0], .addBlock [0],
    .connectTo 2 [3], .connectTo 3 [2, 1], .addBlock [], .connectTo 4 [3], .analyze]

theorem results_current_loopHistory :
    let g := after .usual loopHistory
    g.isDirty = false ∧ ∃ N t, g.numbering? = some N ∧ g.view.number 0 = .ok N ∧
      g.dominators? = .ok t ∧ g.view.dominators N = .ok t ∧
      ∀ b x, g.block? b = some x → N.contains b = true →
        ∃ m, x.marks = some m ∧ N.pre? b = some m.pre ∧ m.idom = t.idom? b ∧
          m.children = t.kidsOf b := by
  have hrun : ((after .usual loopHistory).isDirty, (after .usual loopHistory).entry) =
      (false, some 0) := by cbv
  obtain ⟨hclean, hentry⟩ := Prod.mk.inj hrun
  obtain ⟨entry, -, N, t, hentry', -, hN, hnumber, ht, hdominators, -, hmarks, -⟩ :=
    (results_current_after .usual loopHistory).1 hclean
  cases hentry.symm.trans hentry'
  refine ⟨hclean, N, t, hN, hnumber, ht, hdominators, fun b x hx hb => ?_⟩
  obtain ⟨m, hm, hpre, -, -, -, -, hidom, hchildren⟩ := (hmarks b x hx).1 hb
  exact ⟨m, hm, hpre, hidom, hchildren⟩

end Flowgraph

end ControlFlow

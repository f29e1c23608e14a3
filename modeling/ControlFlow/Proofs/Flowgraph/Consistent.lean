import ControlFlow.Proofs.Flowgraph.Neighbours
import ControlFlow.Proofs.Flowgraph.Roles

namespace ControlFlow

variable {π : Type} {old new b c s t u v u' v' : BlockId}

namespace Flowgraph

variable {g g' g'' : Flowgraph π} {f : Block π → Block π}

/-- The edges of the index are those of both lists and join live blocks; the count of live blocks
and the two sentinels are those of the arena. -/
structure Consistent (g : Flowgraph π) : Prop where
  out : g.Out g.edges.Holds
  into : g.Into g.edges.Holds
  ends : ∀ u v, g.edges.Holds u v → g.Live u ∧ g.Live v
  live_eq : g.live = g.ids.length
  entry : Flagged (·.isEntry) g.entry g
  exit : Flagged (·.isExit) g.exit g

theorem Consistent.of_same (h : Consistent g) (hs : SameRoles g g') (hout : g'.Out g'.edges.Holds)
    (hinto : g'.Into g'.edges.Holds)
    (hends : ∀ u v, g'.edges.Holds u v → g.Live u ∧ g.Live v) : Consistent g' where
  out := hout
  into := hinto
  ends u v huv := by
    rw [hs.live_iff, hs.live_iff]
    exact hends u v huv
  live_eq := by rw [hs.live, hs.ids, h.live_eq]
  entry := hs.entry ▸ hs.flagged Prod.fst h.entry
  exit := hs.exit ▸ hs.flagged Prod.snd h.exit

theorem Out.vacate {S : BlockId → BlockId → Prop} (h : g.Out S) : (g.vacate b).Out S := by
  intro c x hx
  rw [block?_vacate] at hx
  split at hx
  · cases hx
  · exact h c x hx

theorem Into.vacate {P : BlockId → BlockId → Prop} (h : g.Into P) : (g.vacate b).Into P := by
  intro c x hx
  rw [block?_vacate] at hx
  split at hx
  · cases hx
  · exact h c x hx

theorem Out.detach {S : BlockId → BlockId → Prop} (h : g.Out S) (x : Block π) :
    (g.detach b x).Out fun u v => S u v ∧ ¬(u ∈ x.preds.toList ∧ v = b) := by
  refine Out.foldl_dropSucc (List.foldlRecOn _ _ h.vacate ?_) _ b
  intro k hk s _
  exact hk.update_of_eq (fun _ => rfl) fun _ arm => by cases arm <;> rfl

theorem Into.detach {P : BlockId → BlockId → Prop} (h : g.Into P) (x : Block π) :
    (g.detach b x).Into fun u v => P u v ∧ ¬(u = b ∧ v ∈ x.succs.toList) := by
  refine List.foldlRecOn _ _ (Into.foldl_dropPred h.vacate _ b) ?_
  intro k hk p _
  exact hk.update_of_eq fun _ => rfl

theorem edges_invalidate : g.invalidate.edges.Holds = g.edges.Holds := by
  rw [invalidate]
  split
  · rfl
  · exact EdgeIndex.holds_clearKinds

theorem exists_demote (o : Option BlockId) :
    ∃ E : EdgeIndex, g.demote b o t = { g with edges := E } ∧ E.Holds = g.edges.Holds := by
  cases o with
  | none => exact ⟨g.edges, rfl, rfl⟩
  | some o =>
      rw [demote]
      split
      · rename_i ho
        exact ⟨_, rfl, EdgeIndex.holds_setFlow.trans (including_eq_self ho.2)⟩
      · exact ⟨g.edges, rfl, rfl⟩

theorem live_demote (o : Option BlockId) : (g.demote b o t).Live c ↔ g.Live c := by
  obtain ⟨E, h, -⟩ := exists_demote (g := g) (b := b) (t := t) o
  rw [h]
  rfl

theorem edges_demote (o : Option BlockId) : (g.demote b o t).edges.Holds = g.edges.Holds := by
  obtain ⟨E, h, hE⟩ := exists_demote (g := g) (b := b) (t := t) o
  rw [h]
  exact hE

theorem edges_link {flow : Flow} : (g.link u v flow).edges.Holds = including g.edges.Holds u v := by
  rw [link]
  split
  · rename_i huv
    rw [including_eq_self huv]
  · exact edges_invalidate.trans EdgeIndex.holds_setFlow

theorem holds_link (flow : Flow) : (g.link u v flow).edges.Holds u v := by
  rw [edges_link]
  exact .inr ⟨rfl, rfl⟩

namespace Consistent

variable {x : Block π} {E : EdgeIndex}

theorem invalidate (h : Consistent g) : Consistent g.invalidate := by
  refine h.of_same (.invalidate g) ?_ ?_ ?_
  · rw [edges_invalidate]
    exact h.out.invalidate
  · rw [edges_invalidate]
    exact h.into.invalidate
  · rw [edges_invalidate]
    exact h.ends

theorem relabel (h : Consistent g) (hE : E.Holds = g.edges.Holds) :
    Consistent { g with edges := E } := by
  refine h.of_same ((SameRoles.refl g).relabel E) ?_ ?_ ?_
  · rw [hE]
    exact h.out
  · rw [hE]
    exact h.into
  · rw [hE]
    exact h.ends

theorem update_of_eq (h : Consistent g) (hroles : ∀ x, (f x).roles = x.roles)
    (hsuccs : ∀ x, (f x).succs = x.succs) (harms : ∀ x arm, (f x).target? arm = x.target? arm)
    (hpreds : ∀ x, (f x).preds = x.preds) : Consistent (g.update b f) :=
  h.of_same ((SameRoles.refl g).update hroles) (h.out.update_of_eq hsuccs harms) (h.into.update_of_eq hpreds)
    h.ends

theorem mem_succs_iff (h : Consistent g) : v ∈ g.succs u ↔ g.edges.Holds u v := by
  rw [succs]
  cases hx : g.block? u with
  | none =>
      refine iff_of_false List.not_mem_nil fun huv => ?_
      obtain ⟨x, hx'⟩ := (h.ends u v huv).1
      simp [hx] at hx'
  | some x => exact (h.out u x hx).mem_iff v

theorem mem_preds_iff (h : Consistent g) : u ∈ g.preds v ↔ g.edges.Holds u v := by
  rw [preds]
  cases hx : g.block? v with
  | none =>
      refine iff_of_false List.not_mem_nil fun huv => ?_
      obtain ⟨x, hx'⟩ := (h.ends u v huv).2
      simp [hx] at hx'
  | some x => exact (h.into v x hx).mem_iff u

theorem nodup_succs (h : Consistent g) (b : BlockId) : (g.succs b).Nodup := by
  rw [succs]
  cases hx : g.block? b with
  | none => exact List.nodup_nil
  | some x => exact (h.out b x hx).nodup

theorem nodup_preds (h : Consistent g) (b : BlockId) : (g.preds b).Nodup := by
  rw [preds]
  cases hx : g.block? b with
  | none => exact List.nodup_nil
  | some x => exact (h.into b x hx).nodup

theorem rewire (h : Consistent g) (g' : Flowgraph π) (E : EdgeIndex) (hs : SameRoles g g')
    (hout : g'.Out E.Holds) (hinto : g'.Into E.Holds)
    (hends : ∀ u v, E.Holds u v → g.Live u ∧ g.Live v) :
    Consistent (Flowgraph.invalidate { g' with edges := E }) := by
  exact (h.of_same (hs.relabel E) hout hinto hends).invalidate

theorem link (h : Consistent g) (flow : Flow) (hu : g.Live u) (hv : g.Live v) :
    Consistent (g.link u v flow) := by
  rw [Flowgraph.link]
  by_cases huv : g.edges.contains u v = true
  · rwa [if_pos huv]
  rw [if_neg huv]
  refine h.rewire _ _ ?_ ?_ ?_ ?_
  · refine ((SameRoles.refl g).update ?_).update ?_
    · exact fun _ => rfl
    · exact fun _ => rfl
  · rw [EdgeIndex.holds_setFlow]
    refine (h.out.pushSucc huv).update_of_eq ?_ ?_
    · exact fun _ => rfl
    · exact fun _ arm => by cases arm <;> rfl
  · rw [EdgeIndex.holds_setFlow]
    refine Into.pushPred (h.into.update_of_eq ?_) huv
    exact fun _ => rfl
  · rw [EdgeIndex.holds_setFlow]
    rintro a c (hac | ⟨rfl, rfl⟩)
    · exact h.ends a c hac
    · exact ⟨hu, hv⟩

theorem redirectSuccessor (h : Consistent g) (hold : old ∈ g.succs b) (hne : old ≠ new)
    (hnew : g.Live new) : Consistent (g.redirectSuccessor b old new) := by
  rw [h.mem_succs_iff] at hold
  refine h.rewire _ _ ?_ ?_ ?_ ?_
  · refine (((SameRoles.refl g).update ?_).update ?_).update ?_
    · exact fun _ => rfl
    · exact fun _ => rfl
    · exact fun x => x.roles_addPred b
  · rw [EdgeIndex.holds_reindex]
    refine ((h.out.redirectSucc hold hne).update_of_eq ?_ ?_).update_of_eq ?_ ?_
    · exact fun _ => rfl
    · exact fun _ arm => by cases arm <;> rfl
    · exact fun x => x.succs_addPred b
    · exact fun x => x.target?_addPred b
  · rw [EdgeIndex.holds_reindex]
    refine (Into.dropPred (h.into.update_of_eq ?_) b old).addPred b new
    exact fun _ => rfl
  · rw [EdgeIndex.holds_reindex]
    rintro a c (⟨hac, -⟩ | ⟨rfl, rfl⟩)
    · exact h.ends a c hac
    · exact ⟨(h.ends _ _ hold).1, hnew⟩

theorem redirectPredecessor (h : Consistent g) (hold : old ∈ g.preds b) (hne : old ≠ new)
    (hnew : g.Live new) : Consistent (g.redirectPredecessor b old new) := by
  rw [h.mem_preds_iff] at hold
  refine h.rewire _ _ ?_ ?_ ?_ ?_
  · refine (((SameRoles.refl g).update ?_).update ?_).update ?_
    · exact fun _ => rfl
    · exact fun _ => rfl
    · exact fun x => x.roles_adopt b _
  · rw [EdgeIndex.holds_reindex]
    refine (Out.dropSucc (h.out.update_of_eq ?_ ?_) old b).adopt new b _
    · exact fun _ => rfl
    · exact fun _ arm => by cases arm <;> rfl
  · rw [EdgeIndex.holds_reindex]
    refine ((h.into.redirectPred hold hne).update_of_eq ?_).update_of_eq ?_
    · exact fun _ => rfl
    · exact fun x => x.preds_adopt b _
  · rw [EdgeIndex.holds_reindex]
    rintro a c (⟨hac, -⟩ | ⟨rfl, rfl⟩)
    · exact h.ends a c hac
    · exact ⟨hnew, (h.ends _ _ hold).2⟩

theorem removeEdge (h : Consistent g) (u v : BlockId) : Consistent (g.removeEdge u v) := by
  refine h.rewire _ _ ?_ ?_ ?_ ?_
  · refine ((SameRoles.refl g).update ?_).update ?_
    · exact fun _ => rfl
    · exact fun _ => rfl
  · rw [EdgeIndex.holds_erase]
    refine (h.out.dropSucc u v).update_of_eq ?_ ?_
    · exact fun _ => rfl
    · exact fun _ arm => by cases arm <;> rfl
  · rw [EdgeIndex.holds_erase]
    refine Into.dropPred (h.into.update_of_eq ?_) u v
    exact fun _ => rfl
  · rw [EdgeIndex.holds_erase]
    exact fun a c hac => h.ends a c hac.1

theorem demote (h : Consistent g) (o : Option BlockId) : Consistent (g.demote b o t) := by
  obtain ⟨E, hdemote, hE⟩ := exists_demote (g := g) (b := b) (t := t) o
  rw [hdemote]
  exact h.relabel hE

theorem aim (h : Consistent g) (arm : Arm) (hb : g.Live b) (ht : g.Live t) :
    Consistent (g.aim b arm t) := by
  rw [Flowgraph.aim]
  have hlive : ∀ c, (g.demote b ((g.block? b).bind (·.target? arm)) t).Live c ↔ g.Live c :=
    fun c => live_demote _
  have hlink := (h.demote ((g.block? b).bind (·.target? arm))).link arm.flow ((hlive b).mpr hb)
    ((hlive t).mpr ht)
  have hedge := holds_link (g := g.demote b ((g.block? b).bind (·.target? arm)) t) (u := b) (v := t)
    arm.flow
  generalize (g.demote b ((g.block? b).bind (·.target? arm)) t).link b t arm.flow = k
    at hlink hedge ⊢
  have hset : (k.edges.setFlow b t arm.flow).Holds = k.edges.Holds := by
    rw [EdgeIndex.holds_setFlow, including_eq_self hedge]
  have hk := hlink.relabel hset
  refine Consistent.invalidate (hk.of_same ?_ ?_ ?_ hk.ends)
  · refine (SameRoles.refl _).update ?_
    exact fun x => x.roles_aim arm t
  · refine hk.out.aim arm ?_
    exact hset ▸ hedge
  · refine hk.into.update_of_eq ?_
    exact fun x => x.preds_aim arm t

theorem append (h : Consistent g) : Consistent g.append := by
  refine Consistent.invalidate (g := g.grow) ⟨?_, ?_, ?_, ?_, h.entry.grow rfl, h.exit.grow rfl⟩
  · intro b x hx
    rw [block?_grow] at hx
    split at hx
    · rename_i hb
      cases hx
      refine ⟨List.nodup_nil, fun t => iff_of_false List.not_mem_nil fun hE => ?_, ?_⟩
      · exact not_live_size (hb ▸ (h.ends b t hE).1)
      · rintro (_ | _) t ht <;> cases ht
    · exact h.out b x hx
  · intro b x hx
    rw [block?_grow] at hx
    split at hx
    · rename_i hb
      cases hx
      refine ⟨List.nodup_nil, fun s => iff_of_false List.not_mem_nil fun hE => ?_⟩
      exact not_live_size (hb ▸ (h.ends s b hE).2)
    · exact h.into b x hx
  · intro u v huv
    rw [live_grow, live_grow]
    exact ⟨.inr (h.ends u v huv).1, .inr (h.ends u v huv).2⟩
  · rw [ids_grow, List.length_append, ← h.live_eq]
    rfl

theorem mark (h : Consistent g) (entry exit : Option BlockId) (hsuccs : ∀ x, (f x).succs = x.succs)
    (harms : ∀ x arm, (f x).target? arm = x.target? arm) (hpreds : ∀ x, (f x).preds = x.preds)
    (hentry : Flagged (·.isEntry) entry (g.update b f))
    (hexit : Flagged (·.isExit) exit (g.update b f)) :
    Consistent { g.update b f with entry, exit } where
  out := h.out.update_of_eq hsuccs harms
  into := h.into.update_of_eq hpreds
  ends u v huv := ⟨live_update.mpr (h.ends u v huv).1, live_update.mpr (h.ends u v huv).2⟩
  live_eq := h.live_eq.trans (congrArg List.length (ids_update (g := g) (f := f)).symm)
  entry := hentry
  exit := hexit

theorem sentinel (h : Consistent g) (s : Sentinel) :
    Flagged (·.isSentinel s) (g.sentinel? s) g := by
  cases s with
  | entry => exact h.entry
  | exit => exact h.exit

theorem designate (h : Consistent g) (s : Sentinel) (hb : g.Live b)
    (hfree : ∀ c, g.sentinel? s = some c → c = b) : Consistent (g.designate s b) := by
  obtain ⟨entry, exit, hname⟩ := exists_name (g := g) s b
  have hsentinel : ∀ s', Flagged (·.isSentinel s') ((g.name s b).sentinel? s')
      (g.update b (·.mark s)) := by
    intro s'
    rw [sentinel?_name]
    split
    · rename_i hs
      subst hs
      exact (h.sentinel s').mark hb hfree fun x => x.isSentinel_mark
    · rename_i hs
      exact (h.sentinel s').update fun x => x.isSentinel_mark_of_ne hs
  rw [hname] at hsentinel
  rw [Flowgraph.designate, hname]
  exact Consistent.invalidate (h.mark entry exit (fun x => x.succs_mark)
    (fun x => x.target?_mark) (fun x => x.preds_mark) (hsentinel .entry) (hsentinel .exit))

theorem holds_eraseBlock (h : Consistent g) (hx : g.block? b = some x) :
    (g.edges.eraseBlock b x.succs.toList x.preds.toList).1.Holds u v ↔
      g.edges.Holds u v ∧ u ≠ b ∧ v ≠ b := by
  rw [EdgeIndex.eraseBlock, EdgeIndex.holds_eraseAll, List.mem_append, List.mem_map,
    List.mem_map, not_or]
  refine and_congr_right fun huv => and_congr (not_congr ⟨?_, ?_⟩) (not_congr ⟨?_, ?_⟩)
  · rintro ⟨t, -, heq⟩
    cases heq
    rfl
  · rintro rfl
    exact ⟨v, ((h.out u x hx).mem_iff v).mpr huv, rfl⟩
  · rintro ⟨s, -, heq⟩
    cases heq
    rfl
  · rintro rfl
    exact ⟨u, ((h.into v x hx).mem_iff u).mpr huv, rfl⟩

theorem holds_remove (h : Consistent g) (hx : g.block? b = some x) :
    (g.remove b x).edges.Holds u v ↔ g.edges.Holds u v ∧ u ≠ b ∧ v ≠ b := by
  have hedges : (g.remove b x).edges.Holds =
      (g.edges.eraseBlock b x.succs.toList x.preds.toList).1.Holds := edges_invalidate
  rw [hedges]
  exact h.holds_eraseBlock hx

theorem remove (h : Consistent g) (hx : g.block? b = some x) : Consistent (g.remove b x) := by
  have hsame := sameRoles_detach (g := g) (b := b) x
  have hedges := fun u v => h.holds_eraseBlock (u := u) (v := v) hx
  refine Consistent.invalidate ⟨?_, ?_, ?_, ?_, ?_, ?_⟩
  · refine (h.out.detach x).congr fun u v hu => ?_
    rw [hedges, (h.into b x hx).mem_iff]
    simp only [(live_detach.mp hu).1, ne_eq, not_false_eq_true, true_and]
    exact and_congr_right fun huv => not_congr ⟨And.right, fun hv => ⟨hv ▸ huv, hv⟩⟩
  · refine (h.into.detach x).congr fun u v hv => ?_
    rw [hedges, (h.out b x hx).mem_iff]
    simp only [(live_detach.mp hv).1, ne_eq, not_false_eq_true, and_true]
    exact and_congr_right fun huv => not_congr ⟨And.left, fun hu => ⟨hu, hu ▸ huv⟩⟩
  · intro u v huv
    obtain ⟨huv, hu, hv⟩ := (hedges u v).mp huv
    exact ⟨live_detach.mpr ⟨hu, (h.ends u v huv).1⟩, live_detach.mpr ⟨hv, (h.ends u v huv).2⟩⟩
  · change (g.detach b x).live - 1 = (g.detach b x).ids.length
    rw [hsame.ids, hsame.live, ids_vacate, List.length_erase_of_mem (mem_ids.mpr ⟨x, hx⟩),
      ← h.live_eq]
    rfl
  · change Flagged _ (if (g.detach b x).entry = some b then none else (g.detach b x).entry)
      (g.detach b x)
    rw [hsame.entry]
    exact hsame.flagged Prod.fst (h.entry.vacate b)
  · change Flagged _ (if (g.detach b x).exit = some b then none else (g.detach b x).exit)
      (g.detach b x)
    rw [hsame.exit]
    exact hsame.flagged Prod.snd (h.exit.vacate b)

end Consistent

end Flowgraph

end ControlFlow

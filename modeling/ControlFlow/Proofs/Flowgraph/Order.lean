import ControlFlow.Proofs.Flowgraph.Prune

namespace ControlFlow

open Flowgraph

variable {π : Type} {b c old new t u v : BlockId}

def SameOrder (xs ys : List BlockId) : Prop :=
  xs.filter (· ∈ ys) = ys.filter (· ∈ xs)

namespace SameOrder

variable {xs ys : List BlockId}

theorem symm (h : SameOrder xs ys) : SameOrder ys xs :=
  Eq.symm h

theorem of_sublist (h : xs.Sublist ys) (hys : ys.Nodup) : SameOrder xs ys := by
  have hall : xs.filter (· ∈ ys) = xs :=
    List.filter_eq_self.mpr fun a ha => decide_eq_true (h.subset ha)
  refine hall.trans (eq_filter_of_sublist h hys fun a => ?_)
  rw [decide_eq_true_eq, and_iff_right_of_imp fun ha => h.subset ha]

theorem filter_replace {q : BlockId → Bool} (hxs : xs.Nodup) (hnew : q new = false) :
    (xs.replace old new).filter q = xs.filter fun a => q a && decide (a ≠ old) := by
  induction xs with
  | nil => rfl
  | cons a xs ih =>
      obtain ⟨ha, hxs⟩ := List.nodup_cons.mp hxs
      by_cases hold : a = old
      · subst hold
        rw [List.replace_cons_self, List.filter_cons_of_neg (by simp [hnew]),
          List.filter_cons_of_neg (by simp)]
        refine List.filter_congr fun c hc => ?_
        have hne : c ≠ a := fun e => ha (e ▸ hc)
        rw [decide_eq_true hne, Bool.and_true]
      · have hbeq : (old == a) = false := beq_false_of_ne (Ne.symm hold)
        rw [List.replace_cons, hbeq, List.filter_cons, List.filter_cons, ih hxs,
          decide_eq_true hold, Bool.and_true]

theorem replace (hxs : xs.Nodup) (hnew : new ∉ xs) : SameOrder xs (xs.replace old new) := by
  rw [SameOrder, filter_replace hxs (decide_eq_false hnew)]
  refine List.filter_congr fun a ha => ?_
  rw [decide_eq_true ha, Bool.true_and, decide_eq_decide]
  by_cases hold : old ∈ xs
  · rw [mem_replace hxs hold, and_iff_right ha]
    exact or_iff_left fun e => hnew (e ▸ ha)
  · rw [List.replace_of_not_mem hold]
    exact iff_of_true ha fun e => hold (e ▸ ha)

theorem redirect {bs : Array BlockId} (hbs : bs.toList.Nodup) :
    SameOrder bs.toList (redirect old new bs).toList := by
  rw [toList_redirect]
  split
  · exact (of_sublist List.erase_sublist hbs).symm
  · rename_i hnew
    exact replace hbs hnew

end SameOrder

namespace Block

variable (x : Block π)

theorem succs_sublist_addSucc (b : BlockId) :
    x.succs.toList.Sublist (x.addSucc b).succs.toList := by
  rw [addSucc]
  split
  · exact .refl _
  · rw [Array.toList_push]
    exact List.sublist_append_left ..

theorem preds_sublist_addPred (b : BlockId) :
    x.preds.toList.Sublist (x.addPred b).preds.toList := by
  rw [addPred]
  split
  · exact .refl _
  · rw [Array.toList_push]
    exact List.sublist_append_left ..

theorem succs_aim (arm : Arm) (b : BlockId) : (x.aim arm b).succs = x.succs := by
  cases arm <;> rfl

theorem succs_sublist_adopt (b : BlockId) (flow : Flow) :
    x.succs.toList.Sublist (adopt b flow x).succs.toList := by
  cases flow <;> simp only [adopt, succs_aim, succs_sublist_addSucc]

theorem nodes_addPred (b : BlockId) : (x.addPred b).nodes = x.nodes := by
  rw [addPred]
  split <;> rfl

theorem nodes_addSucc (b : BlockId) : (x.addSucc b).nodes = x.nodes := by
  rw [addSucc]
  split <;> rfl

theorem nodes_aim (arm : Arm) (b : BlockId) : (x.aim arm b).nodes = x.nodes := by
  cases arm <;> rfl

theorem nodes_adopt (b : BlockId) (flow : Flow) : (adopt b flow x).nodes = x.nodes := by
  cases flow <;> simp only [adopt, nodes_aim, nodes_addSucc]

end Block

namespace Flowgraph

variable {α : Type} {g g' : Flowgraph π} {f : Block π → Block π} {x : Block π} {flow : Flow}

theorem sameOrder_move {φ : Block π → Array BlockId} {f' : Block π → Block π} (hne : old ≠ new)
    (hf : ∀ x, (φ (f x)).toList.Sublist (φ x).toList)
    (hf' : ∀ x, (φ x).toList.Sublist (φ (f' x)).toList) (hg : (g.listOf φ c).Nodup)
    (hk : (((g.update old f).update new f').listOf φ c).Nodup) :
    SameOrder (g.listOf φ c) (((g.update old f).update new f').listOf φ c) := by
  by_cases hc : new = c
  · have hgrown := rel_listOf_update (g := g.update old f) (b := new) (R := List.Sublist) .refl
      (fun x _ => hf' x) c
    rw [listOf_update_of_ne (hc ▸ hne)] at hgrown
    exact .of_sublist hgrown hk
  · rw [listOf_update_of_ne hc]
    have hshrunk := rel_listOf_update (g := g) (b := old) (R := fun xs ys => ys.Sublist xs) .refl
      (fun x _ => hf x) c
    exact (SameOrder.of_sublist hshrunk hg).symm

def Orderly (g g' : Flowgraph π) : Prop :=
  ∀ c, SameOrder (g.succs c) (g'.succs c) ∧ SameOrder (g.preds c) (g'.preds c)

theorem Thinned.of_eq (hsuccs : g'.succs = g.succs) (hpreds : g'.preds = g.preds) :
    g.Thinned g' := by
  intro c
  rw [hsuccs, hpreds]
  exact ⟨.refl _, .refl _⟩

theorem Thinned.orderly (h : g.Thinned g') (hg : Consistent g) : g.Orderly g' :=
  fun c => ⟨(SameOrder.of_sublist (h c).1 (hg.nodup_succs c)).symm,
    (SameOrder.of_sublist (h c).2 (hg.nodup_preds c)).symm⟩

theorem Orderly.symm (h : g.Orderly g') : g'.Orderly g :=
  fun c => ⟨(h c).1.symm, (h c).2.symm⟩

theorem thinned_of_invalidate : g.invalidate.Thinned g :=
  .of_eq (succs_invalidate g).symm (preds_invalidate g).symm

theorem thinned_of_update (hsuccs : ∀ x : Block π, x.succs.toList.Sublist (f x).succs.toList)
    (hpreds : ∀ x : Block π, x.preds.toList.Sublist (f x).preds.toList) :
    (g.update b f).Thinned g :=
  fun c => ⟨rel_listOf_update (φ := Block.succs) List.Sublist.refl (fun x _ => hsuccs x) c,
    rel_listOf_update (φ := Block.preds) List.Sublist.refl (fun x _ => hpreds x) c⟩

theorem thinned_append : g.append.Thinned g :=
  .trans thinned_of_invalidate
    (.of_eq (listOf_grow (φ := Block.succs) rfl).symm (listOf_grow (φ := Block.preds) rfl).symm)

theorem thinned_link : (g.link u v flow).Thinned g := by
  rw [link]
  split
  · exact .refl g
  · refine .trans thinned_of_invalidate (.trans (thinned_of_update (b := v) ?_ ?_)
      (thinned_of_update (b := u) ?_ ?_))
    · exact fun _ => .refl _
    · intro x
      rw [Array.toList_push]
      exact List.sublist_append_left ..
    · intro x
      rw [Array.toList_push]
      exact List.sublist_append_left ..
    · exact fun _ => .refl _

theorem thinned_foldl_link (bs : List BlockId) (s t : BlockId → BlockId) :
    (bs.foldl (fun g b => g.link (s b) (t b) flow) g).Thinned g := by
  induction bs generalizing g with
  | nil => exact .refl g
  | cons b bs ih => exact ih.trans thinned_link

theorem thinned_demote (o : Option BlockId) : (g.demote b o t).Thinned g := by
  obtain ⟨E, h, -⟩ := exists_demote (g := g) (b := b) (t := t) o
  rw [h]
  exact .refl g

theorem thinned_aim (arm : Arm) : (g.aim b arm t).Thinned g := by
  refine .trans thinned_of_invalidate (.trans (thinned_of_update ?_ ?_)
    (.trans thinned_link (thinned_demote ((g.block? b).bind (·.target? arm)))))
  · exact fun x => x.succs_aim arm t ▸ .refl _
  · exact fun x => x.preds_aim arm t ▸ .refl _

theorem thinned_removeEdge : g.Thinned (g.removeEdge u v) := by
  refine .trans (.trans (thinned_update (b := u) ?_ ?_) (thinned_update (b := v) ?_ ?_))
    (.of_eq (succs_invalidate _) (preds_invalidate _))
  · exact fun x => x.succs_dropSucc_sublist v
  · exact fun _ => .refl _
  · exact fun _ => .refl _
  · exact fun x => x.preds_dropPred_sublist u

theorem Consistent.orderly_redirectSuccessor (h : Consistent g) (hold : old ∈ g.succs b)
    (hne : old ≠ new) (hnew : g.Live new) : g.Orderly (g.redirectSuccessor b old new) := by
  -- the lists of the new graph are free of duplicates, which orders the one that grew
  have h' := h.redirectSuccessor hold hne hnew
  have hfirst : (g.update b (·.redirectSucc old new)).listOf Block.preds = g.listOf Block.preds :=
    listOf_update_of_eq fun _ => rfl
  intro c
  constructor
  · have hsuccs : (g.redirectSuccessor b old new).succs =
        (g.update b (·.redirectSucc old new)).succs := by
      refine (succs_invalidate _).trans ((listOf_update_of_eq (φ := Block.succs) ?_).trans
        (listOf_update_of_eq (φ := Block.succs) ?_))
      · exact fun x => x.succs_addPred b
      · exact fun _ => rfl
    rw [hsuccs]
    exact rel_listOf_update (φ := Block.succs) (R := SameOrder) (fun _ => rfl)
      (fun x hx => .redirect (h.out b x hx).nodup) c
  · have hpreds : (g.redirectSuccessor b old new).preds =
        (((g.update b (·.redirectSucc old new)).update old (·.dropPred b)).update new
          (·.addPred b)).listOf Block.preds := preds_invalidate _
    have hmove := sameOrder_move (φ := Block.preds) (g := g.update b (·.redirectSucc old new))
      (c := c) hne (fun x => x.preds_dropPred_sublist b) (fun x => x.preds_sublist_addPred b)
      (hfirst ▸ h.nodup_preds c) (hpreds ▸ h'.nodup_preds c)
    rw [hfirst, ← hpreds] at hmove
    exact hmove

theorem Consistent.orderly_redirectPredecessor (h : Consistent g) (hold : old ∈ g.preds b)
    (hne : old ≠ new) (hnew : g.Live new) : g.Orderly (g.redirectPredecessor b old new) := by
  have h' := h.redirectPredecessor hold hne hnew
  have hfirst : (g.update b (·.redirectPred old new)).listOf Block.succs = g.listOf Block.succs :=
    listOf_update_of_eq fun _ => rfl
  intro c
  constructor
  · have hsuccs : (g.redirectPredecessor b old new).succs =
        (((g.update b (·.redirectPred old new)).update old (·.dropSucc b)).update new
          (adopt b (g.flowOf old b))).listOf Block.succs := succs_invalidate _
    have hmove := sameOrder_move (φ := Block.succs) (g := g.update b (·.redirectPred old new))
      (c := c) hne (fun x => x.succs_dropSucc_sublist b) (fun x => x.succs_sublist_adopt b _)
      (hfirst ▸ h.nodup_succs c) (hsuccs ▸ h'.nodup_succs c)
    rw [hfirst, ← hsuccs] at hmove
    exact hmove
  · have hpreds : (g.redirectPredecessor b old new).preds =
        (g.update b (·.redirectPred old new)).preds := by
      refine (preds_invalidate _).trans ((listOf_update_of_eq (φ := Block.preds) ?_).trans
        (listOf_update_of_eq (φ := Block.preds) ?_))
      · exact fun x => x.preds_adopt b _
      · exact fun _ => rfl
    rw [hpreds]
    exact rel_listOf_update (φ := Block.preds) (R := SameOrder) (fun _ => rfl)
      (fun x hx => .redirect (h.into b x hx).nodup) c

def nodesOf (g : Flowgraph π) : BlockId → List π :=
  g.listOf (·.nodes)

theorem nodesOf_update (hf : ∀ x, (f x).nodes = x.nodes) : (g.update b f).nodesOf = g.nodesOf :=
  listOf_update_of_eq hf

theorem nodesOf_invalidate : g.invalidate.nodesOf = g.nodesOf :=
  listOf_invalidate fun _ => rfl

theorem nodesOf_append : g.append.nodesOf = g.nodesOf :=
  (listOf_invalidate (g := g.grow) fun _ => rfl).trans (listOf_grow rfl)

theorem nodesOf_link : (g.link u v flow).nodesOf = g.nodesOf := by
  rw [link]
  split
  · rfl
  · refine nodesOf_invalidate.trans ((nodesOf_update ?_).trans (nodesOf_update ?_))
    · exact fun _ => rfl
    · exact fun _ => rfl

theorem nodesOf_foldl_link (bs : List BlockId) (s t : BlockId → BlockId) :
    (bs.foldl (fun g b => g.link (s b) (t b) flow) g).nodesOf = g.nodesOf := by
  induction bs generalizing g with
  | nil => rfl
  | cons b bs ih => exact ih.trans nodesOf_link

theorem nodesOf_demote (o : Option BlockId) : (g.demote b o t).nodesOf = g.nodesOf := by
  obtain ⟨E, h, -⟩ := exists_demote (g := g) (b := b) (t := t) o
  rw [h]
  rfl

theorem nodesOf_aim (arm : Arm) : (g.aim b arm t).nodesOf = g.nodesOf := by
  refine nodesOf_invalidate.trans ((nodesOf_update ?_).trans (nodesOf_link.trans
    (nodesOf_demote ((g.block? b).bind (·.target? arm)))))
  exact fun x => x.nodes_aim arm t

theorem nodesOf_redirectSuccessor : (g.redirectSuccessor b old new).nodesOf = g.nodesOf := by
  refine nodesOf_invalidate.trans ((nodesOf_update ?_).trans ((nodesOf_update ?_).trans
    (nodesOf_update ?_)))
  · exact fun x => x.nodes_addPred b
  · exact fun _ => rfl
  · exact fun _ => rfl

theorem nodesOf_redirectPredecessor : (g.redirectPredecessor b old new).nodesOf = g.nodesOf := by
  refine nodesOf_invalidate.trans ((nodesOf_update ?_).trans ((nodesOf_update ?_).trans
    (nodesOf_update ?_)))
  · exact fun x => x.nodes_adopt b _
  · exact fun _ => rfl
  · exact fun _ => rfl

theorem nodesOf_removeEdge : (g.removeEdge u v).nodesOf = g.nodesOf := by
  refine nodesOf_invalidate.trans ((nodesOf_update ?_).trans (nodesOf_update ?_))
  · exact fun _ => rfl
  · exact fun _ => rfl

theorem nodesOf_eq_of_core?_eq (h : g'.core? b = g.core? b) : g'.nodesOf b = g.nodesOf b := by
  have hcore : ∀ k : Flowgraph π, k.nodesOf b = ((k.core? b).map (·.nodes.toList)).getD [] := by
    intro k
    rw [nodesOf, listOf, core?, Option.map_map]
    rfl
  rw [hcore, hcore, h]

theorem nodesOf_remove (hc : c ≠ b) : (g.remove b x).nodesOf c = g.nodesOf c :=
  nodesOf_eq_of_core?_eq (by rw [core?_remove, if_neg hc])

theorem nodesOf_push (node : π) (hb : g.Live b) : (g.update b (·.push node)).nodesOf c =
    g.nodesOf c ++ if b = c then [node] else [] := by
  rw [nodesOf, nodesOf, listOf, listOf, block?_update]
  split
  · rename_i hc
    subst hc
    obtain ⟨x, hx⟩ := hb
    rw [hx]
    exact Array.toList_push
  · rw [List.append_nil]

end Flowgraph

end ControlFlow

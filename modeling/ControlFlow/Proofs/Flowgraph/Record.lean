import ControlFlow.Proofs.Dominators
import ControlFlow.Proofs.Flowgraph.Consistent

namespace ControlFlow

variable {π : Type} {b c u v entry exit root : BlockId} {r : Results}

namespace Flowgraph

variable {g : Flowgraph π}

theorem Live.lt_size (h : g.Live b) : b < g.blocks.size := by
  obtain ⟨x, hx⟩ := h
  rw [block?, Option.join_eq_some_iff] at hx
  exact (Array.getElem?_eq_some_iff.mp hx).1

theorem Consistent.step_iff (h : Consistent g) : g.view.Step u v ↔ g.edges.Holds u v :=
  h.mem_succs_iff

theorem Consistent.live_of_reaches (h : Consistent g) (hroot : g.Live root)
    (hb : g.view.Reaches root b) : g.Live b := by
  rcases hb.cases_tail with rfl | ⟨c, -, hcb⟩
  · exact hroot
  · exact (h.ends c b (h.step_iff.mp hcb)).2

theorem Consistent.sound (h : Consistent g) (hroot : g.Live root) : g.view.Sound root where
  root_lt := hroot.lt_size
  inRange b _ c hbc := (h.ends b c (h.step_iff.mp hbc)).2.lt_size
  mirrored _ _ _ _ := h.mem_preds_iff.trans h.step_iff.symm

theorem Consistent.sound_reversed (h : Consistent g) (hroot : g.Live root) :
    g.view.reversed.Sound root where
  root_lt := hroot.lt_size
  inRange b _ c hbc := (h.ends c b (h.mem_preds_iff.mp hbc)).1.lt_size
  mirrored _ _ _ _ := h.step_iff.trans h.mem_preds_iff.symm

theorem compute_ok (h : g.compute entry exit = .ok r) :
    g.view.number entry = .ok r.numbering ∧ g.view.dominators r.numbering = .ok r.dominators ∧
      if g.passes.postDominators then
        ∃ t, r.postDominators = some t ∧ g.view.postDominators exit = .ok t
      else r.postDominators = none := by
  rw [compute] at h
  obtain ⟨N, hN, h⟩ := bind_eq_ok_iff.mp h
  obtain ⟨t, ht, h⟩ := bind_eq_ok_iff.mp h
  -- the cross-check can only refuse
  have h : (if g.passes.postDominators = true then
      (some <$> g.view.postDominators exit) >>= fun post => Except.ok ⟨N, t, post⟩
      else Except.ok ⟨N, t, none⟩) = Except.ok r := by
    dsimp only at h
    split at h
    · obtain ⟨_, -, h⟩ := bind_eq_ok_iff.mp h
      obtain ⟨_, -, h⟩ := bind_eq_ok_iff.mp h
      exact h
    · exact h
  split at h
  · rename_i hpost
    rw [if_pos hpost]
    obtain ⟨post, hp, h⟩ := bind_eq_ok_iff.mp h
    cases h
    cases ht' : g.view.postDominators exit with
    | error e =>
        rw [ht'] at hp
        cases hp
    | ok t' =>
        rw [ht'] at hp
        cases hp
        exact ⟨hN, ht, t', rfl, rfl⟩
  · rename_i hpost
    rw [if_neg hpost]
    cases h
    exact ⟨hN, ht, rfl⟩

theorem marksOf_of_contains {v : View} (h : r.numbering.Finished v root)
    (hb : r.numbering.contains b = true) :
    ∃ m, marksOf r b = some m ∧ r.numbering.pre? b = some m.pre ∧
      r.numbering.post? b = some m.post ∧ r.numbering.rpost? b = some m.rpost ∧
      m.parent = r.numbering.parent? b ∧ m.semi = r.dominators.semi? b ∧
      m.idom = r.dominators.idom? b ∧ m.children = r.dominators.kidsOf b := by
  obtain ⟨i, hi⟩ := Numbering.contains_iff.mp hb
  obtain ⟨j, hj⟩ := h.exists_post hi
  have hk : r.numbering.rpost? b = some (r.numbering.size - 1 - j) := by
    rw [Numbering.rpost?, hj, Option.map_some]
  rw [marksOf, hi, hj, hk]
  exact ⟨_, rfl, rfl, rfl, rfl, rfl, rfl, rfl, rfl⟩

theorem marksOf_of_not_contains (hb : r.numbering.contains b = false) : marksOf r b = none := by
  rw [Numbering.contains, Option.isSome_eq_false_iff, Option.isNone_iff_eq_none] at hb
  rw [marksOf, hb]

theorem block?_record : (g.record r).block? b =
    (g.block? b).map fun x => { x with marks := (marksOf r b).or x.marks } := by
  simp only [block?, record, Array.getElem?_mapIdx]
  cases g.blocks[b]? with
  | none => rfl
  | some x => cases x <;> rfl

theorem Flagged.live {flag : Block π → Bool} {named : Option BlockId} (h : Flagged flag named g)
    (hb : named = some b) : g.Live b := by
  obtain ⟨x, hx, -⟩ := (h b).mp hb
  exact ⟨x, hx⟩

theorem Consistent.finished (h : Consistent g) (hentry : g.Live entry)
    (hr : g.compute entry exit = .ok r) : r.numbering.Finished g.view entry := by
  have hsound := h.sound hentry
  obtain ⟨N, hN, hfin⟩ := View.number_finished hsound.root_lt hsound.inRange
  rw [(compute_ok hr).1] at hN
  cases hN
  exact hfin

theorem edges_record :
    (g.record r).edges = r.numbering.crossings.toList.foldl
      (fun x c => x.setKind c.source c.target c.kind) g.edges := by
  rw [record, Array.foldl_toList]

theorem Consistent.holds_record (h : Consistent g) (hentry : g.Live entry)
    (hr : g.compute entry exit = .ok r) : (g.record r).edges.Holds = g.edges.Holds := by
  rw [edges_record]
  refine EdgeIndex.holds_foldl_setKind _ fun c hc => ?_
  have hfin := h.finished hentry hr
  exact h.step_iff.mp (hfin.step_of_mem (Array.mem_toList_iff.mp hc)).2

theorem sameRoles_record : SameRoles g (g.record r) := by
  refine ⟨Array.size_mapIdx, fun b => ?_, rfl, rfl, rfl⟩
  rw [block?_record, Option.map_map]
  rfl

theorem Consistent.record (h : Consistent g) (hentry : g.Live entry)
    (hr : g.compute entry exit = .ok r) : Consistent (g.record r) := by
  have hholds := h.holds_record hentry hr
  refine h.of_same sameRoles_record ?_ ?_ ?_
  · rw [hholds]
    intro b x hx
    rw [block?_record, Option.map_eq_some_iff] at hx
    obtain ⟨y, hy, rfl⟩ := hx
    exact (h.out b y hy).of_eq rfl fun arm => by cases arm <;> rfl
  · rw [hholds]
    intro b x hx
    rw [block?_record, Option.map_eq_some_iff] at hx
    obtain ⟨y, hy, rfl⟩ := hx
    exact (h.into b y hy).of_eq rfl
  · rw [hholds]
    exact h.ends

theorem foldl_update (f : BlockId → Block π → Block π) (hf : ∀ b x, f b (f b x) = f b x)
    (bs : List BlockId) : bs.foldl (fun g b => g.update b (f b)) g =
      { g with blocks := g.blocks.mapIdx fun b o => if b ∈ bs then o.map (f b) else o } := by
  induction bs generalizing g with
  | nil =>
      have hblocks : (g.blocks.mapIdx fun b o => if b ∈ [] then o.map (f b) else o) = g.blocks :=
        Array.ext_getElem? fun i => by simp
      rw [hblocks]
      rfl
  | cons c cs ih =>
      have hblocks : ((g.update c (f c)).blocks.mapIdx fun b o =>
            if b ∈ cs then o.map (f b) else o) =
          g.blocks.mapIdx fun b o => if b ∈ c :: cs then o.map (f b) else o := by
        refine Array.ext_getElem? fun i => ?_
        rw [Array.getElem?_mapIdx, Array.getElem?_mapIdx, update, Array.getElem?_modify]
        by_cases hc : c = i
        · subst hc
          by_cases hmem : c ∈ cs
          · simp [hmem, Function.comp_def, hf]
          · simp [hmem, Function.comp_def]
        · simp [hc, Ne.symm hc]
      rw [List.foldl_cons, ih, hblocks]
      rfl

theorem Consistent.steady : Steady (π := π) Consistent := by
  intro g g' hchange h
  cases hchange with
  | append => exact h.append
  | link hu hv => exact h.link .unconditional hu hv
  | designate s hb hfree => exact h.designate s hb hfree
  | test b =>
      refine Consistent.invalidate (h.update_of_eq ?_ ?_ ?_ ?_)
      · exact fun _ => rfl
      · exact fun _ => rfl
      · exact fun _ arm => by cases arm <;> rfl
      · exact fun _ => rfl
  | push b node =>
      refine h.update_of_eq ?_ ?_ ?_ ?_
      · exact fun _ => rfl
      · exact fun _ => rfl
      · exact fun _ arm => by cases arm <;> rfl
      · exact fun _ => rfl
  | passes p =>
      exact Consistent.invalidate ⟨h.out, h.into, h.ends, h.live_eq, h.entry, h.exit⟩
  | remove hx => exact h.remove hx
  | removeEdge => exact h.removeEdge _ _
  | invalidate => exact h.invalidate
  | record _ hentry _ hr => exact h.record (h.entry.live hentry) hr
  | arrange => exact ⟨h.out, h.into, h.ends, h.live_eq, h.entry, h.exit⟩

theorem Consistent.lasting : Lasting (π := π) Consistent := by
  intro g g' hchange h
  cases hchange with
  | plain hplain => exact Consistent.steady g g' hplain h
  | aim arm hb htarget => exact h.aim arm hb htarget
  | redirectSuccessor hold hne hnew => exact h.redirectSuccessor hold hne hnew
  | redirectPredecessor hold hne hnew => exact h.redirectPredecessor hold hne hnew

end Flowgraph

namespace Edit

open Flowgraph

variable {g : Flowgraph π}

theorem exec_mark {pre post : Nat} (hpre : r.numbering.pre? b = some pre)
    (hpost : r.numbering.post? b = some post) (hb : g.Live b)
    (htree : r.dominators.contains b = true) :
    (mark r b pre).exec g = (.ok (), g.update b ({ · with marks := marksOf r b })) := by
  obtain ⟨x, hx⟩ := hb
  have hrpost : r.numbering.rpost? b = some (r.numbering.size - 1 - post) := by
    rw [Numbering.rpost?, hpost, Option.map_some]
  have hidom : (ofExcept (r.dominators.idom b)).exec g = (.ok (r.dominators.idom? b), g) := by
    rw [exec_ofExcept, DomTree.idom_eq htree]
  have hchildren : (ofExcept (r.dominators.children b)).exec g =
      (.ok (r.dominators.kidsOf b), g) := by
    rw [exec_ofExcept, DomTree.children_eq htree]
  rw [mark, hpost, hrpost, exec_bind_of_ok (exec_get g), hx]
  dsimp only
  rw [exec_bind_of_ok hidom, exec_bind_of_ok hchildren, exec_modify, marksOf, hpre, hpost, hrpost]

theorem exec_forM_mark (ls : List (BlockId × Nat))
    (h : ∀ b pre, (b, pre) ∈ ls → r.numbering.pre? b = some pre ∧
      (∃ post, r.numbering.post? b = some post) ∧ g.Live b ∧ r.dominators.contains b = true) :
    (ls.forM fun (b, pre) => mark r b pre).exec g =
      (.ok (), (ls.map Prod.fst).foldl
        (fun g b => g.update b ({ · with marks := marksOf r b })) g) := by
  induction ls generalizing g with
  | nil => rfl
  | cons l ls ih =>
      obtain ⟨hpre, ⟨post, hpost⟩, hlive, htree⟩ := h l.1 l.2 List.mem_cons_self
      refine (exec_bind_of_ok (exec_mark hpre hpost hlive htree)).trans
        (ih fun b pre hl => ?_)
      rw [live_update]
      exact h b pre (List.mem_cons_of_mem l hl)

/-- Whatever an analysis has found out about a consistent graph is recorded without a fault: every
numbered block is live and has its place in the tree. -/
theorem exec_record (hg : Consistent g) (hentry : g.Live entry)
    (hr : g.compute entry exit = .ok r) : (record r).exec g = (.ok (), g.record r) := by
  have hfin := hg.finished hentry hr
  obtain ⟨t, ht, hhangs⟩ := View.dominators_spec (hg.sound hentry) hfin
  cases (compute_ok hr).2.1.symm.trans ht
  have hmarks := exec_forM_mark (g := g) (r := r) r.numbering.preorder.toList.zipIdx
    fun b pre hb => by
      have hpre : r.numbering.pre? b = some pre := by
        rw [hfin.pre]
        simpa using List.mem_zipIdx_iff_getElem?.mp hb
      have hreach := hfin.reaches hpre
      exact ⟨hpre, hfin.exists_post hpre, hg.live_of_reaches hentry hreach,
        (hhangs.contains_iff b).mpr hreach⟩
  have hblocks : (fun b (o : Option (Block π)) => if b ∈ r.numbering.preorder.toList then
        o.map ({ · with marks := marksOf r b }) else o) =
      fun b o => o.map fun x => { x with marks := (marksOf r b).or x.marks } := by
    funext b o
    split
    · rename_i hb
      rw [Array.mem_toList_iff, hfin.mem_preorder, ← hfin.contains_iff] at hb
      obtain ⟨m, hm, -⟩ := marksOf_of_contains hfin hb
      rw [hm]
      rfl
    · rename_i hb
      rw [Array.mem_toList_iff, hfin.mem_preorder, ← hfin.contains_iff, Bool.not_eq_true] at hb
      rw [marksOf_of_not_contains hb]
      exact Option.map_id'.symm
  rw [record, exec_bind_of_ok hmarks, exec_modify, List.zipIdx_map_fst,
    foldl_update (fun b x => { x with marks := marksOf r b }) fun _ _ => rfl, hblocks]
  rfl

end Edit

end ControlFlow

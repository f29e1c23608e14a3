import ControlFlow.Proofs.DomTree.Frontier
import ControlFlow.Proofs.Fixpoint.Table

namespace ControlFlow

open Relation

variable {g : View} {root b d : BlockId} {N : Numbering} {t u : DomTree}

namespace DomTree

theorem requireIdom_eq (ht : t.contains b = true) (hu : u.contains b = true)
    (hidom : t.idom? b = u.idom? b) : t.requireIdom u b = .ok () := by
  rw [requireIdom, idom_eq ht, idom_eq hu, hidom, hu]
  exact if_pos rfl

theorem requireSame_eq (hroot : t.root = u.root) (hsize : t.size = u.size)
    (h : ∀ b ∈ t.preorder, t.contains b = true ∧ u.contains b = true ∧ t.idom? b = u.idom? b) :
    t.requireSame u = .ok () := by
  rw [requireSame, if_pos ⟨hroot, hsize⟩]
  refine forM_eq_ok fun b hb => ?_
  obtain ⟨ht, hu, hidom⟩ := h b (Array.mem_toList_iff.mp hb)
  exact requireIdom_eq ht hu hidom

end DomTree

section Tables

variable {hpos : 0 < N.preorder.size} {idom : Vector (Fin N.preorder.size) N.preorder.size}
  {r : Fin N.postorder.size} {v : DomTable N.postorder.size}
  (hg : g.Sound root) (hN : N.Finished g root)

include hg hN

theorem tableOf_eq_some_iff (hidom : ∀ i : Fin N.preorder.size, i.val ≠ 0 →
      IsIdom (N.spanning g).Edge ⟨0, hpos⟩ (idom.get i) i) :
    (N.tableOf idom)[b]?.join = some d ↔
      g.Reaches root b ∧ b ≠ root ∧ IsIdom g.Step root d b := by
  have hentry : ∀ d, (N.tableOf idom)[b]?.join = some d → g.Reaches root b ∧ b ≠ root := by
    intro d hd
    obtain ⟨i, rfl, hi, -⟩ := (Numbering.getElem?_tableOf hN idom).mp hd
    exact ⟨Numbering.Finished.reaches_block hN i,
      fun e => hi ((Numbering.Finished.block_eq_root_iff hN).mp e)⟩
  constructor
  · intro hd
    obtain ⟨hb, hne⟩ := hentry d hd
    obtain ⟨e, he, -, hidom⟩ := exists_tableOf hg hN hidom hb hne
    rw [hd] at he
    cases he
    exact ⟨hb, hne, hidom⟩
  · rintro ⟨hb, hne, hd⟩
    obtain ⟨e, he, -, hidom⟩ := exists_tableOf hg hN hidom hb hne
    rw [he, hidom.unique hb hd]

theorem rtableOf_eq_some_iff (hr : r.val = 0)
    (hv : DomTable.Settled (N.rpreds g) r v) :
    (N.rtableOf v)[b]?.join = some d ↔
      g.Reaches root b ∧ b ≠ root ∧ IsIdom g.Step root d b := by
  have hroot : N.rblock r = root := (Numbering.Finished.rblock_eq_root_iff hN).mpr hr
  have hentry : ∀ s : Fin N.postorder.size, s.val ≠ 0 →
      ∃ e, v.get s = some e ∧ IsIdom g.Step root (N.rblock e) (N.rblock s) := by
    intro s hs
    obtain ⟨e, he, hidom⟩ := hv.isIdom s hs
    refine ⟨e, he, ?_⟩
    have hcopy := Numbering.Finished.rcopy hN hg
    have hreach : ReflTransGen g.Step (N.rblock r) (N.rblock s) :=
      hroot ▸ Numbering.Finished.reaches_rblock hN s
    exact hroot ▸ hcopy.isIdom hreach hidom
  rw [Numbering.getElem?_rtableOf hN]
  constructor
  · rintro ⟨s, rfl, hs, e, he, rfl⟩
    obtain ⟨e', he', hidom⟩ := hentry s hs
    rw [he] at he'
    cases he'
    exact ⟨Numbering.Finished.reaches_rblock hN s,
      fun e => hs ((Numbering.Finished.rblock_eq_root_iff hN).mp e), hidom⟩
  · rintro ⟨hb, hne, hd⟩
    obtain ⟨s, rfl⟩ := Numbering.Finished.exists_rblock hN hb
    have hs : s.val ≠ 0 := fun e => hne ((Numbering.Finished.rblock_eq_root_iff hN).mpr e)
    obtain ⟨e, he, hidom⟩ := hentry s hs
    exact ⟨s, rfl, hs, e, he, hidom.unique hb hd⟩

theorem rtableOf_eq_tableOf (hr : r.val = 0)
    (hv : DomTable.Settled (N.rpreds g) r v)
    (hidom : ∀ i : Fin N.preorder.size, i.val ≠ 0 →
      IsIdom (N.spanning g).Edge ⟨0, hpos⟩ (idom.get i) i) :
    N.rtableOf v = N.tableOf idom := by
  have hsize : (N.rtableOf v).size = (N.tableOf idom).size := by
    rw [Numbering.rtableOf, Numbering.tableOf, Array.size_map, Array.size_map]
  have hjoin : ∀ b : BlockId, (N.rtableOf v)[b]?.join = (N.tableOf idom)[b]?.join := by
    intro b
    refine Option.ext fun d => ?_
    rw [rtableOf_eq_some_iff hg hN hr hv, tableOf_eq_some_iff hg hN hidom]
  refine Array.ext hsize fun i hi hi' => ?_
  have hi := hjoin i
  simpa [Array.getElem?_eq_getElem, hi', hsize] using hi

theorem View.fixpointDominators_eq (hidom : ∀ i : Fin N.preorder.size, i.val ≠ 0 →
      IsIdom (N.spanning g).Edge ⟨0, hpos⟩ (idom.get i) i) :
    g.fixpointDominators N = DomTree.ofIdoms g root (N.tableOf idom) #[] := by
  have hpos' : 0 < N.postorder.size := by
    rw [Numbering.postorder_size hN]
    exact hpos
  obtain ⟨v, hsolve, hv⟩ : ∃ v, DomTable.solve (N.rpreds g) = .ok v ∧
      DomTable.Settled (N.rpreds g) ⟨0, hpos'⟩ v :=
    DomTable.exists_solve (Numbering.Finished.ordered_rpreds hN hg) rfl
  have hknown : ∀ s : Fin N.postorder.size, s.val ≠ 0 → v.Known s := fun s hs =>
    (hv.isIdom s hs).imp fun _ hd => hd.1
  rw [← rtableOf_eq_tableOf hg hN rfl hv hidom,
    fixpointDominators_eq_ofIdoms (Numbering.requireFits_eq hN) hsolve hknown, hN.root_eq]

end Tables

theorem View.exists_tree (hg : g.Sound root) (hN : N.Finished g root) :
    ∃ t idoms semis, DomTree.ofIdoms g root idoms semis = .ok t ∧ t.Hangs g root ∧
      g.dominators N = .ok t ∧ g.fixpointDominators N = .ok { t with semis := #[] } := by
  obtain ⟨hpos, idom, semi, t, hspec, ht, hsweep⟩ := View.exists_sweep hg hN
  have hidom := fun i hi => (hspec i hi).1
  refine ⟨t, _, _, ht, hangs_of_ofIdoms hg hN hidom ht, hsweep, ?_⟩
  rw [fixpointDominators_eq hg hN hidom]
  exact DomTree.ofIdoms_semis ht #[]

theorem Rooted.dominators_agree (g : Rooted) (hg : g.toView.Sound g.root) :
    ∃ N t u, g.number = .ok N ∧ g.toView.dominators N = .ok t ∧
      g.toView.fixpointDominators N = .ok u ∧ u = { t with semis := u.semis } ∧
      t.requireSame u = .ok () := by
  obtain ⟨N, hnum, hN⟩ := View.number_finished hg.root_lt hg.inRange
  obtain ⟨t, idoms, semis, ht, -, hsweep, hfix⟩ := View.exists_tree hg hN
  have hcontains : ∀ b ∈ t.preorder, t.contains b = true :=
    fun b hb => DomTree.contains_of_mem_preorder ht hb
  refine ⟨N, t, { t with semis := #[] }, hnum, hsweep, hfix, rfl, ?_⟩
  exact DomTree.requireSame_eq rfl rfl fun b hb => ⟨hcontains b hb, hcontains b hb, rfl⟩

theorem Rooted.dominators_agree_tangle :
    tangle.toView.Sound tangle.root ∧ ∃ N t u, tangle.number = .ok N ∧
      tangle.toView.dominators N = .ok t ∧ tangle.toView.fixpointDominators N = .ok u ∧
      u = { t with semis := u.semis } ∧ t.requireSame u = .ok () := by
  have hsound : tangle.toView.Sound tangle.root :=
    View.sound_ofEdges (by decide) (by decide)
  exact ⟨hsound, Rooted.dominators_agree tangle hsound⟩

end ControlFlow

import ControlFlow.Proofs.DomTree.Frontier
import ControlFlow.Proofs.Dominators

namespace ControlFlow

open Relation

variable {g : View} {root a b c exit r : BlockId} {idoms semis : Array (Option BlockId)}
  {t : DomTree} {N : Numbering} {stop : Option BlockId} {F F' F'' : Array (List BlockId)}

namespace DomTree

/-- One of the two analyses returned `t`, for some graph and some numbering. -/
def Returned (t : DomTree) : Prop :=
  ∃ (g : View) (N : Numbering), g.dominators N = .ok t ∨ g.fixpointDominators N = .ok t

namespace Returned

theorem of_rooted {g : Rooted} (h : g.dominators = .ok t) : t.Returned := by
  obtain ⟨N, -, h⟩ := bind_eq_ok_iff.mp h
  exact ⟨g.toView, N, .inl h⟩

theorem of_postDominators (h : g.postDominators exit = .ok t) : t.Returned := by
  obtain ⟨N, -, h⟩ := bind_eq_ok_iff.mp h
  exact ⟨g.reversed, N, .inl h⟩

theorem exists_ofIdoms (h : t.Returned) :
    ∃ g root idoms semis, ofIdoms g root idoms semis = .ok t := by
  obtain ⟨g, N, h | h⟩ := h
  · obtain ⟨_, -, h⟩ := bind_eq_ok_iff.mp h
    split at h
    · obtain ⟨_, -, h⟩ := bind_eq_ok_iff.mp h
      exact ⟨_, _, _, _, h⟩
    · cases h
  · obtain ⟨_, -, h⟩ := bind_eq_ok_iff.mp h
    obtain ⟨v, -, h⟩ := bind_eq_ok_iff.mp h
    dsimp only at h
    split at h
    · cases h
    · exact ⟨_, _, _, _, h⟩

end Returned

section Frontiers

structure Extended (b : BlockId) (F F' : Array (List BlockId)) : Prop where
  ascending : Ascending b F'
  old_or_new : ∀ a c, c ∈ entries F' a → c ∈ entries F a ∨ c = b

theorem Ascending.extended (h : Ascending b F) : Extended b F F :=
  ⟨h, fun _ _ => .inl⟩

theorem Extended.trans (h : Extended b F F') (h' : Extended b F' F'') : Extended b F F'' where
  ascending := h'.ascending
  old_or_new a c hc := (h'.old_or_new a c hc).elim (h.old_or_new a c) .inr

theorem modify_of_size_le (hr : F.size ≤ r) : F.modify r (b :: ·) = F := by
  refine Array.ext_getElem? fun i => ?_
  rw [Array.getElem?_modify]
  split
  · rename_i hri
    rw [Array.getElem?_eq_none (hri ▸ hr), Option.map_none]
  · rfl

theorem Ascending.extended_modify (h : Ascending b F) (hb : b ∉ entries F r) :
    Extended b F (F.modify r (b :: ·)) := by
  by_cases hr : r < F.size
  · exact ⟨h.modify hr hb, fun a c hc => ((mem_entries_modify_iff hr).mp hc).imp_right And.left⟩
  · rw [modify_of_size_le (Nat.not_lt.mp hr)]
    exact h.extended

theorem Ascending.extended_mark (h : Ascending b F) (k : Nat) :
    Extended b F (t.mark b stop k r F) := by
  induction k generalizing r F with
  | zero =>
      rw [mark]
      split
      · exact h.extended
      · rename_i hpassed
        rw [Bool.or_eq_true, not_or, h.marked_iff] at hpassed
        exact h.extended_modify hpassed.2
  | succ k ih =>
      rw [mark]
      split
      · exact h.extended
      · rename_i hpassed
        rw [Bool.or_eq_true, not_or, h.marked_iff] at hpassed
        have hfirst := h.extended_modify hpassed.2
        dsimp only
        cases t.idom? r with
        | none => exact hfirst
        | some p => exact hfirst.trans (ih hfirst.ascending)

theorem Ascending.extended_foldl_mark (h : Ascending b F) (stop : Option BlockId)
    (rs : List BlockId) :
    Extended b F (rs.foldl (fun F r => t.mark b stop (t.depthOf r) r F) F) := by
  induction rs generalizing F with
  | nil => exact h.extended
  | cons r rs ih =>
      have hfirst : Extended b F (t.mark b stop (t.depthOf r) r F) := h.extended_mark _
      exact hfirst.trans (ih hfirst.ascending)

theorem Ascending.extended_markJoin (h : Ascending b F) :
    Extended b F (t.markJoin g b F) ∧
      ∀ a c, c ∈ entries (t.markJoin g b F) a → c ∈ entries F a ∨ t.contains c = true := by
  rw [markJoin]
  by_cases hjoin : t.contains b ∧ (2 ≤ ((g.preds b).filter t.contains).length ∨
      (b = t.root ∧ (g.preds b).filter t.contains ≠ []))
  · rw [if_pos hjoin]
    have hmarks := h.extended_foldl_mark (t := t) (t.idom? b) ((g.preds b).filter t.contains)
    refine ⟨hmarks, fun a c hc => (hmarks.old_or_new a c hc).imp_right ?_⟩
    rintro rfl
    exact hjoin.1
  · rw [if_neg hjoin]
    exact ⟨h.extended, fun _ _ => .inl⟩

theorem foldr_markJoin_spec (l : List BlockId) (hl : l.Pairwise (· < ·)) :
    ∀ a, (entries (l.foldr (t.markJoin g) (Array.replicate t.bound [])) a).Pairwise (· < ·) ∧
      ∀ c ∈ entries (l.foldr (t.markJoin g) (Array.replicate t.bound [])) a,
        c ∈ l ∧ t.contains c = true := by
  induction l with
  | nil =>
      intro a
      rw [List.foldr_nil, entries_replicate]
      exact ⟨.nil, fun c hc => absurd hc List.not_mem_nil⟩
  | cons b l ih =>
      obtain ⟨hb, hl⟩ := List.pairwise_cons.mp hl
      have ih := ih hl
      have hF : Ascending b (l.foldr (t.markJoin g) (Array.replicate t.bound [])) :=
        ⟨fun a => (ih a).1, fun a c hc => (hb c ((ih a).2 c hc).1).le⟩
      obtain ⟨hnext, hinside⟩ := hF.extended_markJoin (t := t) (g := g)
      refine fun a => ⟨hnext.ascending.sorted a, fun c hc => ⟨?_, ?_⟩⟩
      · rcases hnext.old_or_new a c hc with hc | rfl
        · exact List.mem_cons_of_mem b ((ih a).2 c hc).1
        · exact List.mem_cons_self
      · rcases hinside a c hc with hc | hc
        · exact ((ih a).2 c hc).2
        · exact hc

theorem ofIdoms_frontiers_within (h : ofIdoms g root idoms semis = .ok t) (a : BlockId) :
    (t.frontierOf a).Pairwise (· < ·) ∧ ∀ c ∈ t.frontierOf a, t.contains c = true := by
  obtain ⟨N, hN, rfl⟩ := exists_buildable h
  have hspec := foldr_markJoin_spec (t := ofNumbering g root idoms semis N) (g := g)
    (List.range (ofNumbering g root idoms semis N).bound) List.pairwise_lt_range a
  rw [← frontierTable, ← frontiers_ofNumbering semis] at hspec
  exact ⟨hspec.1, fun c hc => (hspec.2 c hc).2⟩

theorem Returned.frontierOf_pairwise (h : t.Returned) (a : BlockId) :
    (t.frontierOf a).Pairwise (· < ·) := by
  obtain ⟨g, root, idoms, semis, hbuilt⟩ := h.exists_ofIdoms
  exact (ofIdoms_frontiers_within hbuilt a).1

theorem Returned.contains_of_mem_frontierOf (h : t.Returned) (hc : c ∈ t.frontierOf a) :
    t.contains c = true := by
  obtain ⟨g, root, idoms, semis, hbuilt⟩ := h.exists_ofIdoms
  exact (ofIdoms_frontiers_within hbuilt a).2 c hc

end Frontiers

theorem Returned.levelled (h : t.Returned) : Levelled t := by
  obtain ⟨g, root, idoms, semis, hbuilt⟩ := h.exists_ofIdoms
  exact ofIdoms_levelled hbuilt

end DomTree

theorem Rooted.exists_returned (g : Rooted) (hg : g.toView.Sound g.root) :
    ∃ t, g.dominators = .ok t ∧ t.Returned ∧ t.Hangs g.toView g.root := by
  obtain ⟨N, hnum, hN⟩ := View.number_finished hg.root_lt hg.inRange
  obtain ⟨t, ht, hhangs⟩ := View.dominators_spec hg hN
  have ht : g.dominators = .ok t := (dominators_eq hnum).trans ht
  exact ⟨t, ht, .of_rooted ht, hhangs⟩

theorem exists_returned_tangle :
    ∃ t, tangle.dominators = .ok t ∧ t.Returned ∧ ∀ b ∈ [0, 1, 2, 3], t.contains b = true := by
  have hsound : tangle.toView.Sound tangle.root := View.sound_ofEdges (by decide) (by decide)
  obtain ⟨t, ht, hreturned, hhangs⟩ := tangle.exists_returned hsound
  have hone : 1 ∈ tangle.succs 0 := by decide
  have htwo : 2 ∈ tangle.succs 0 := by decide
  have hthree : 3 ∈ tangle.succs 1 := by decide
  refine ⟨t, ht, hreturned, fun b hb => (hhangs.contains_iff b).mpr ?_⟩
  simp only [List.mem_cons, List.not_mem_nil, or_false] at hb
  rcases hb with rfl | rfl | rfl | rfl
  · exact .refl
  · exact .single hone
  · exact .single htwo
  · exact (ReflTransGen.single hone).tail hthree

end ControlFlow

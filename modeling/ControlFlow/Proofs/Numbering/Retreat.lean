import ControlFlow.Proofs.Numbering.Classes
import ControlFlow.Proofs.Traversal

namespace ControlFlow

open Relation

section Cycle

variable {α : Type} {R : α → α → Prop} {a b c : α} {p : List α}

theorem Route.exists_rise (rank : α → Nat) (h : Route R a b p) (hlen : 2 ≤ p.length)
    (hle : rank a ≤ rank b) : ∃ u v, [u, v] <:+: p ∧ R u v ∧ rank u ≤ rank v := by
  induction h with
  | here a => simp at hlen
  | @step a c b p hac hp ih =>
      by_cases hrise : rank a ≤ rank c
      · refine ⟨a, c, List.IsPrefix.isInfix ?_, hac, hrise⟩
        cases hp <;> simp
      · have hlen : 2 ≤ p.length := by
          by_contra hshort
          rw [hp.eq_of_length hshort] at hrise
          exact hrise hle
        obtain ⟨u, v, huv, hstep, hrank⟩ := ih hlen (by omega)
        exact ⟨u, v, huv.trans (List.suffix_cons a p).isInfix, hstep, hrank⟩

theorem exists_cycle (h : TransGen R b b) : ∃ p, Route R b b p ∧ 2 ≤ p.length := by
  obtain ⟨c, hbc, hcb⟩ := TransGen.head'_iff.mp h
  obtain ⟨p, hp⟩ := exists_route_iff.mpr hcb
  refine ⟨b :: p, .step hbc hp, ?_⟩
  have hpos := List.length_pos_of_mem hp.head_mem
  rw [List.length_cons]
  omega

end Cycle

namespace Numbering

variable {g : View} {root a b u v : BlockId} {p : List BlockId} {N : Numbering} {e : Crossing}
  {i j k l : Nat}

section Finished

variable (h : N.Finished g root)

include h

theorem Running.path_down (hab : Above N.parent? a b) : g.Reaches a b := by
  induction hab using ReflTransGen.head_induction_on with
  | refl => exact .refl
  | head hxy _ ih => exact ih.tail (h.parent_edge _ _ hxy)

theorem Places.post_lt_iff (he : N.Places e) (hk : N.post? e.source = some k)
    (hl : N.post? e.target = some l) : l < k ↔ e.kind ≠ .back := by
  rcases e with ⟨u, v, _ | _ | _ | _⟩
  · obtain ⟨m, hm, hmk⟩ := h.parent_post v u k he hk
    rw [hl] at hm
    cases hm
    simpa using hmk
  · have hle : k ≤ l := h.post_le he hl hk
    simpa using hle
  · have hle : l ≤ k := h.post_le he.1 hk hl
    have hne : l ≠ k := fun e' => he.2 (h.post.inj hk (e' ▸ hl))
    simp only [ne_eq, reduceCtorEq, not_false_eq_true, iff_true]
    omega
  · obtain ⟨i, j, m, -, -, -, hm, hlt⟩ := he
    rw [hl] at hm
    cases hm
    simpa using hlt k hk

theorem Running.exists_post_of_reaches (hb : g.Reaches root b) : ∃ k, N.post? b = some k := by
  obtain ⟨i, hi⟩ := h.exists_pre_iff.mp hb
  exact h.exists_post hi

theorem Running.rpost_lt_iff (hi : N.rpost? u = some i) (hj : N.rpost? v = some j)
    (hk : N.post? u = some k) (hl : N.post? v = some l) : i < j ↔ l < k := by
  obtain ⟨i', hi', hik⟩ := h.exists_rpost hk
  obtain ⟨j', hj', hjl⟩ := h.exists_rpost hl
  rw [hi] at hi'
  rw [hj] at hj'
  cases hi'
  cases hj'
  omega

theorem Running.rpost?_eq_some_iff :
    N.rpost? b = some i ↔ N.reversePostorder[i]? = some b := by
  have hsize : N.postorder.size = N.size := postorder_size h
  rw [rpost?, Option.map_eq_some_iff, reversePostorder]
  constructor
  · rintro ⟨k, hk, rfl⟩
    have hlt := h.post.lt_size hk
    rw [List.getElem?_reverse (by simp; omega), Array.length_toList, Array.getElem?_toList,
      ← h.post b]
    have heq : N.postorder.size - 1 - (N.size - 1 - k) = k := by omega
    rwa [heq]
  · intro hi
    have hlt : i < N.postorder.size := by
      simpa using (List.getElem?_eq_some_iff.mp hi).1
    rw [List.getElem?_reverse (by simpa using hlt), Array.length_toList, Array.getElem?_toList,
      ← h.post b] at hi
    exact ⟨_, hi, by omega⟩

variable (hclassed : N.Classed)

include hclassed

theorem Running.rpost_lt_iff_of_mem (he : e ∈ N.crossings) :
    ∃ i j, N.rpost? e.source = some i ∧ N.rpost? e.target = some j ∧
      (i < j ↔ e.kind ≠ .back) := by
  obtain ⟨hsource, hstep⟩ := h.step_of_mem he
  obtain ⟨k, hk⟩ := h.exists_post_of_reaches hsource
  obtain ⟨l, hl⟩ := h.exists_post_of_reaches (hsource.tail hstep)
  obtain ⟨i, hi, -⟩ := h.exists_rpost hk
  obtain ⟨j, hj, -⟩ := h.exists_rpost hl
  refine ⟨i, j, hi, hj, ?_⟩
  rw [h.rpost_lt_iff hi hj hk hl]
  exact (hclassed.places e he).post_lt_iff h hk hl

theorem Running.exists_back (hb : g.Reaches root b) (hp : Route g.Step b b p)
    (hlen : 2 ≤ p.length) : ∃ e ∈ N.crossings, e.kind = .back ∧ [e.source, e.target] <:+: p := by
  -- the walk comes round, so some block on it is left no earlier than the one before
  obtain ⟨u, v, huv, hstep, hrank⟩ := hp.exists_rise (fun c => (N.post? c).getD 0) hlen le_rfl
  have hu : g.Reaches root u := by
    have hmem : u ∈ p := huv.subset List.mem_cons_self
    exact hb.trans (hp.reaches_of_mem hmem)
  obtain ⟨kind, he⟩ := h.exists_crossing hu hstep
  obtain ⟨k, hk⟩ := h.exists_post_of_reaches hu
  obtain ⟨l, hl⟩ := h.exists_post_of_reaches (hu.tail hstep)
  refine ⟨⟨u, v, kind⟩, he, ?_, huv⟩
  by_contra hkind
  have hlt : l < k := ((hclassed.places _ he).post_lt_iff h hk hl).mpr hkind
  simp only [hk, hl, Option.getD_some] at hrank
  omega

theorem Running.acyclic_iff : (∀ b, g.Reaches root b → ¬TransGen g.Step b b) ↔
    ∀ e ∈ N.crossings, e.kind ≠ .back := by
  constructor
  · intro hacyclic e he hkind
    have habove : Above N.parent? e.target e.source := by
      have hplaces := hclassed.places e he
      rwa [Places, hkind] at hplaces
    obtain ⟨hsource, hstep⟩ := h.step_of_mem he
    exact hacyclic e.target (hsource.tail hstep) (.tail' (h.path_down habove) hstep)
  · intro hback b hb hloop
    obtain ⟨p, hp, hlen⟩ := exists_cycle hloop
    obtain ⟨e, he, hkind, -⟩ := h.exists_back hclassed hb hp hlen
    exact hback e he hkind

end Finished

end Numbering

theorem View.reversePostorder_correct {g : View} {root : BlockId} (hroot : root < g.bound)
    (hrange : g.InRange root) :
    ∃ N, g.number root = .ok N ∧ g.reversePostorder root = .ok N.reversePostorder ∧
      (∀ (b : BlockId) (i : Nat), N.rpost? b = some i ↔ N.reversePostorder[i]? = some b) ∧
      (∀ e ∈ N.crossings, ∃ i j, N.rpost? e.source = some i ∧ N.rpost? e.target = some j ∧
        (i < j ↔ e.kind ≠ .back)) ∧
      (∀ e ∈ N.crossings, e.kind ≠ .back → ∃ i j : Nat, N.reversePostorder[i]? = some e.source ∧
        N.reversePostorder[j]? = some e.target ∧ i < j) ∧
      (∀ b p, g.Reaches root b → Route g.Step b b p → 2 ≤ p.length →
        ∃ e ∈ N.crossings, e.kind = .back ∧ [e.source, e.target] <:+: p) ∧
      ((∀ b, g.Reaches root b → ¬TransGen g.Step b b) ↔ ∀ e ∈ N.crossings, e.kind ≠ .back) := by
  obtain ⟨N, hnum, hN, htraverses⟩ := exists_number_traverses hrange hroot
  obtain ⟨_, fs, hpost, hfs⟩ := exists_postorder_traverses hrange hroot
  obtain ⟨-, rfl⟩ := hfs.unique htraverses
  have hclassed := Numbering.number_classed hroot hnum
  have hposition := fun b i => hN.rpost?_eq_some_iff (b := b) (i := i)
  refine ⟨N, hnum, ?_, hposition, fun e => hN.rpost_lt_iff_of_mem hclassed, fun e he hkind => ?_,
    fun b p => hN.exists_back hclassed, hN.acyclic_iff hclassed⟩
  · rw [reversePostorder, hpost]
    rfl
  · obtain ⟨i, j, hi, hj, hiff⟩ := hN.rpost_lt_iff_of_mem hclassed he
    exact ⟨i, j, (hposition _ i).mp hi, (hposition _ j).mp hj, hiff.mpr hkind⟩

theorem View.reversePostorder_correct_tangle :
    tangle.root < tangle.bound ∧ tangle.InRange tangle.root ∧
    ∃ N, tangle.toView.number tangle.root = .ok N ∧
      tangle.toView.reversePostorder tangle.root = .ok N.reversePostorder ∧
      (∀ (b : BlockId) (i : Nat), N.rpost? b = some i ↔ N.reversePostorder[i]? = some b) ∧
      (∀ e ∈ N.crossings, ∃ i j, N.rpost? e.source = some i ∧ N.rpost? e.target = some j ∧
        (i < j ↔ e.kind ≠ .back)) ∧
      (∀ e ∈ N.crossings, e.kind ≠ .back → ∃ i j : Nat, N.reversePostorder[i]? = some e.source ∧
        N.reversePostorder[j]? = some e.target ∧ i < j) ∧
      (∀ b p, tangle.Reaches tangle.root b → Route tangle.Step b b p → 2 ≤ p.length →
        ∃ e ∈ N.crossings, e.kind = .back ∧ [e.source, e.target] <:+: p) ∧
      ((∀ b, tangle.Reaches tangle.root b → ¬TransGen tangle.Step b b) ↔
        ∀ e ∈ N.crossings, e.kind ≠ .back) := by
  have hsound : tangle.toView.Sound tangle.root :=
    View.sound_ofEdges (by decide) (by decide)
  exact ⟨hsound.root_lt, hsound.inRange,
    View.reversePostorder_correct hsound.root_lt hsound.inRange⟩

end ControlFlow

import ControlFlow.Dominators
import ControlFlow.Proofs.Numbering.Finished
import ControlFlow.Proofs.Semidominator.Solve

namespace ControlFlow

open Relation

section Transfer

variable {α β : Type} {R : α → α → Prop} {R' : β → β → Prop} {f : β → α} {r i j d : β}

structure Copy (R : α → α → Prop) (R' : β → β → Prop) (f : β → α) : Prop where
  injective : ∀ i j, f i = f j → i = j
  step : ∀ i j, R' i j ↔ R (f i) (f j)
  closed : ∀ i b, R (f i) b → ∃ j, f j = b

theorem Copy.lift_path (h : Copy R R' f) {P : α → Prop} {b : α}
    (hb : ReflTransGen (fun u v => R u v ∧ P v) (f r) b) :
    ∃ j, f j = b ∧ ReflTransGen (fun u v => R' u v ∧ P (f v)) r j := by
  induction hb with
  | refl => exact ⟨r, rfl, .refl⟩
  | tail _ hxy ih =>
      obtain ⟨i, rfl, hi⟩ := ih
      obtain ⟨j, rfl⟩ := h.closed i _ hxy.1
      exact ⟨j, rfl, hi.tail ⟨(h.step i j).mpr hxy.1, hxy.2⟩⟩

theorem Copy.dominates_iff (h : Copy R R' f) :
    Dominates R (f r) (f i) (f j) ↔ Dominates R' r i j := by
  rw [← not_iff_not, not_dominates_iff, not_dominates_iff]
  refine and_congr (not_congr ⟨h.injective r i, fun e => e ▸ rfl⟩) ⟨?_, ?_⟩
  · intro hpath
    obtain ⟨k, hk, hpath⟩ := h.lift_path (P := (· ≠ f i)) hpath
    cases h.injective k j hk
    exact ReflTransGen.mono (fun u v huv => ⟨huv.1, fun e => huv.2 (e ▸ rfl)⟩) _ _ hpath
  · intro hpath
    refine ReflTransGen.lift f (fun u v huv => ?_) _ _ hpath
    exact ⟨(h.step u v).mp huv.1, fun e => huv.2 (h.injective v i e)⟩

theorem Copy.isIdom (h : Copy R R' f) (hj : ReflTransGen R (f r) (f j)) (hd : IsIdom R' r d j) :
    IsIdom R (f r) (f d) (f j) := by
  refine ⟨⟨fun e => hd.1.1 (h.injective d j e), h.dominates_iff.mpr hd.1.2⟩, fun e he => ?_⟩
  obtain ⟨p, hp⟩ := exists_route_iff.mpr hj
  have hpath : ReflTransGen R (f r) e := hp.reaches_of_mem (he.2 p hp)
  obtain ⟨k, rfl, -⟩ := h.lift_path (P := fun _ => True)
    (ReflTransGen.mono (fun u v huv => ⟨huv, trivial⟩) _ _ hpath)
  rw [h.dominates_iff]
  exact hd.2 k ⟨fun e => he.1 (e ▸ rfl), h.dominates_iff.mp he.2⟩

end Transfer

/-- What an analysis from `root` relies on: the edges met stay in range, and the lists of
predecessors mirror those of successors among the blocks reached. -/
structure View.Sound (g : View) (root : BlockId) : Prop where
  root_lt : root < g.bound
  inRange : g.InRange root
  mirrored : ∀ u v, g.Reaches root u → g.Reaches root v → (u ∈ g.preds v ↔ g.Step u v)

theorem View.inRange_ofEdges {n : Nat} {edges predEdges : List (BlockId × BlockId)}
    {root : BlockId} (hedges : ∀ e ∈ edges, e.1 < n ∧ e.2 < n) :
    (View.ofEdges n edges predEdges).InRange root :=
  fun b _ c hbc => (hedges (b, c) (mem_lists.mp hbc).2).2

theorem View.sound_ofEdges {n : Nat} {edges : List (BlockId × BlockId)} {root : BlockId}
    (hroot : root < n) (hedges : ∀ e ∈ edges, e.1 < n ∧ e.2 < n) :
    (View.ofEdges n edges edges).Sound root where
  root_lt := hroot
  inRange := inRange_ofEdges hedges
  mirrored u v _ _ := by
    change u ∈ (lists n (edges.map Prod.swap))[v]?.getD [] ↔ v ∈ (lists n edges)[u]?.getD []
    rw [mem_lists, mem_lists, List.mem_map]
    constructor
    · rintro ⟨-, ⟨x, y⟩, hmem, heq⟩
      cases heq
      exact ⟨(hedges _ hmem).1, hmem⟩
    · rintro ⟨-, hmem⟩
      exact ⟨(hedges (u, v) hmem).2, (u, v), hmem, rfl⟩

namespace Numbering

variable {g g' : View} {root b : BlockId} {N : Numbering}

def PredStep (N : Numbering) (g : View) (u v : BlockId) : Prop :=
  N.contains u = true ∧ N.contains v = true ∧ u ∈ g.preds v

theorem rank?_eq_some_iff (h : N.Finished g root) {i : Fin N.preorder.size} :
    N.rank? b = some i ↔ N.block i = b := by
  have hblock : N.block i = b ↔ N.preorder[i.val]? = some b := by
    rw [Array.getElem?_eq_getElem i.isLt, Option.some.injEq]
    rfl
  rw [hblock, ← h.pre b i, rank?, Option.bind_eq_some_iff]
  constructor
  · rintro ⟨k, hk, hki⟩
    split at hki
    · cases hki
      exact hk
    · cases hki
  · intro hi
    exact ⟨i.val, hi, by rw [dif_pos i.isLt]⟩

namespace Finished

variable (h : N.Finished g root) {i j : Fin N.preorder.size}

include h

theorem pre_block (i : Fin N.preorder.size) : N.pre? (N.block i) = some i.val :=
  (h.pre _ i).mpr (Array.getElem?_eq_getElem i.isLt)

theorem exists_block {k : Nat} (hb : N.pre? b = some k) : ∃ i : Fin N.preorder.size, N.block i = b := by
  have hlt := h.pre.lt_size hb
  refine ⟨⟨k, hlt⟩, ?_⟩
  have hget := (h.pre b k).mp hb
  rw [Array.getElem?_eq_getElem hlt] at hget
  exact Option.some.inj hget

theorem block_injective (hij : N.block i = N.block j) : i = j := by
  have hi := pre_block h i
  rw [hij, pre_block h j] at hi
  exact Fin.ext (Option.some.inj hi).symm

theorem reaches_block (i : Fin N.preorder.size) : g.Reaches root (N.block i) :=
  h.reaches (pre_block h i)

theorem block_eq_root_iff : N.block i = root ↔ i.val = 0 := by
  have hroot := h.root_first
  have hi := pre_block h i
  constructor
  · intro e
    rw [e, hroot] at hi
    exact (Option.some.inj hi).symm
  · intro e
    rw [e] at hi
    exact h.pre.inj hi hroot

theorem exists_block_ne (hb : g.Reaches root b) (hne : b ≠ root) :
    ∃ i : Fin N.preorder.size, N.block i = b ∧ i.val ≠ 0 := by
  rw [← h.contains_iff, Numbering.contains_iff] at hb
  obtain ⟨k, hk⟩ := hb
  obtain ⟨i, rfl⟩ := exists_block h hk
  exact ⟨i, rfl, fun e => hne ((block_eq_root_iff h).mpr e)⟩

theorem contains_block (i : Fin N.preorder.size) : N.contains (N.block i) = true :=
  Numbering.contains_iff.mpr ⟨_, pre_block h i⟩

theorem edge_iff_mem : (N.spanning g').Edge i j ↔ N.block i ∈ g'.preds (N.block j) := by
  rw [Spanning.Edge, spanning, vector_get_ofFn, List.mem_filterMap]
  constructor
  · rintro ⟨b, hb, hi⟩
    rw [(rank?_eq_some_iff h).mp hi]
    exact hb
  · intro hb
    exact ⟨_, hb, (rank?_eq_some_iff h).mpr rfl⟩

theorem pred_copy : Copy (N.PredStep g') (N.spanning g').Edge N.block where
  injective _ _ := block_injective h
  step i j := by
    rw [edge_iff_mem h, PredStep, and_iff_right (contains_block h i),
      and_iff_right (contains_block h j)]
  closed i b hb := by
    obtain ⟨k, hk⟩ := Numbering.contains_iff.mp hb.2.1
    exact exists_block h hk

theorem edge_iff (hg : g.Sound root) :
    (N.spanning g).Edge i j ↔ g.Step (N.block i) (N.block j) := by
  rw [edge_iff_mem h, hg.mirrored _ _ (reaches_block h i) (reaches_block h j)]

theorem copy (hg : g.Sound root) : Copy g.Step (N.spanning g).Edge N.block where
  injective _ _ := block_injective h
  step _ _ := edge_iff h hg
  closed i b hb := by
    have hreach : g.Reaches root b := (reaches_block h i).tail hb
    rw [← h.contains_iff, Numbering.contains_iff] at hreach
    obtain ⟨k, hk⟩ := hreach
    exact exists_block h hk

theorem up_iff : (N.spanning g').up j = some i ↔ N.parent? (N.block j) = some (N.block i) := by
  rw [Spanning.up_eq_some_iff, spanning, vector_get_ofFn]
  constructor
  · rintro ⟨hj, hi⟩
    have hne : N.block j ≠ root := fun e => hj ((block_eq_root_iff h).mp e)
    obtain ⟨p, hp⟩ := h.has_parent _ _ (pre_block h j) hne
    obtain ⟨x, _, hx, _, _⟩ := h.parent_pre _ p hp
    obtain ⟨k, rfl⟩ := exists_block h hx
    rw [hp, Option.bind_some, (rank?_eq_some_iff h).mpr rfl, Option.getD_some] at hi
    rw [hp, hi]
  · intro hp
    refine ⟨fun hj => ?_, ?_⟩
    · rw [(block_eq_root_iff h).mpr hj, h.parent_root] at hp
      cases hp
    · rw [hp, Option.bind_some, (rank?_eq_some_iff h).mpr rfl, Option.getD_some]

theorem above_iff_block :
    Above (N.spanning g').up i j ↔ Above N.parent? (N.block i) (N.block j) := by
  constructor
  · intro hab
    exact ReflTransGen.lift N.block (fun _ _ hxy => (up_iff h).mp hxy) _ _ hab
  · intro hab
    generalize hb : N.block j = b at hab
    induction hab using ReflTransGen.head_induction_on generalizing j with
    | refl => exact block_injective h hb ▸ .refl j
    | @head x y hxy _ ih =>
        subst hb
        obtain ⟨k, _, hk, _, _⟩ := h.parent_pre _ y hxy
        obtain ⟨m, rfl⟩ := exists_block h hk
        exact .of_up ((up_iff h).mpr hxy) (ih rfl)

theorem spanning_descends : (N.spanning g').Descends := by
  intro i hi
  have hup : N.parent? (N.block i) = some (N.block ((N.spanning g').parent.get i)) :=
    (up_iff h).mp (Spanning.up_eq_some_iff.mpr ⟨hi, rfl⟩)
  obtain ⟨x, y, hx, hy, hxy⟩ := h.parent_pre _ _ hup
  rw [pre_block h] at hx hy
  cases hx
  cases hy
  exact hxy

theorem depthFirst_of_preds (hparent : ∀ b p, N.parent? b = some p → p ∈ g'.preds b)
    (hdown : ∀ i j, (N.spanning g').Edge i j → i < j → Above N.parent? (N.block i) (N.block j)) :
    (N.spanning g').DepthFirst where
  descends := spanning_descends h
  parent_edge i hi := by
    rw [edge_iff_mem h]
    exact hparent _ _ ((up_iff h).mp (Spanning.up_eq_some_iff.mpr ⟨hi, rfl⟩))
  contiguous a v w haw hav hvw := by
    rw [above_iff_block h] at haw ⊢
    exact h.above_of_le haw (pre_block h a) (pre_block h v) (pre_block h w) hav hvw
  edge_down u v huv hlt := (above_iff_block h).mpr (hdown u v huv hlt)

theorem spanning_depthFirst (hg : g.Sound root) : (N.spanning g).DepthFirst := by
  refine depthFirst_of_preds h (fun b p hp => ?_) fun i j hij hlt => ?_
  · obtain ⟨x, y, hx, hy, -⟩ := h.parent_pre b p hp
    exact (hg.mirrored p b (h.reaches hx) (h.reaches hy)).mpr (h.parent_edge b p hp)
  · exact h.above_of_step ((edge_iff h hg).mp hij) (pre_block h i) (pre_block h j) hlt

end Finished

end Numbering

end ControlFlow

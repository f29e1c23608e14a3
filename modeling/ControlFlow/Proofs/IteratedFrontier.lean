import ControlFlow.Proofs.Convergence
import ControlFlow.Proofs.Frontier
import ControlFlow.Proofs.Walk

namespace ControlFlow

open Relation

namespace DomTree

variable {t : DomTree} {accept : BlockId → Bool} {b c m : BlockId} {bs met ms work : List BlockId}
  {seen : IdSet}

inductive Spreads (t : DomTree) (accept : BlockId → Bool) (work : List BlockId) : BlockId → Prop
  | start {b m : BlockId} : b ∈ work → m ∈ t.frontierOf b → Spreads t accept work m
  | next {b m : BlockId} :
      Spreads t accept work b → accept b = true → m ∈ t.frontierOf b → Spreads t accept work m

theorem Spreads.trans {work' : List BlockId} (h : Spreads t accept work' m)
    (hwork : ∀ x ∈ work', x ∈ work ∨ Spreads t accept work x ∧ accept x = true) :
    Spreads t accept work m := by
  induction h with
  | start hb hm =>
      rcases hwork _ hb with hb | ⟨hb, ha⟩
      · exact .start hb hm
      · exact .next hb ha hm
  | next _ ha hm ih => exact .next ih ha hm

theorem mem_fresh : m ∈ t.fresh seen b ↔
    m ∈ t.frontierOf b ∧ m < seen.capacity ∧ seen.has m = false := by
  rw [fresh, List.mem_filter]
  simp

/-- The blocks that a worklist meets, when those in `seen` were met before. -/
structure Meets (t : DomTree) (accept : BlockId → Bool) (work : List BlockId) (seen : IdSet)
    (met : List BlockId) : Prop where
  nodup : met.Nodup
  unseen : ∀ m ∈ met, seen.has m = false
  spreads : ∀ m ∈ met, Spreads t accept work m
  from_work : ∀ b ∈ work, ∀ m ∈ t.frontierOf b, seen.has m = true ∨ m ∈ met
  from_met : ∀ b ∈ met, accept b = true → ∀ m ∈ t.frontierOf b, seen.has m = true ∨ m ∈ met

theorem Meets.turn (hnodup : (t.frontierOf b).Nodup)
    (hlt : ∀ m ∈ t.frontierOf b, m < seen.capacity) (hms : t.fresh seen b = ms)
    (h : Meets t accept ((ms.filter accept).reverse ++ work) (ms.foldl .put seen) met) :
    Meets t accept (b :: work) seen (ms ++ met) := by
  have hfresh : ∀ x, x ∈ ms ↔ x ∈ t.frontierOf b ∧ x < seen.capacity ∧ seen.has x = false := by
    intro x
    rw [← hms, mem_fresh]
  have hseen : ∀ x, (ms.foldl .put seen).has x = true ↔ seen.has x = true ∨ x ∈ ms :=
    fun x => IdSet.has_foldl_put_iff fun y hy => ((hfresh y).mp hy).2.1
  have hmet : ∀ m, (ms.foldl .put seen).has m = true ∨ m ∈ met →
      seen.has m = true ∨ m ∈ ms ++ met := by
    intro m hm
    rwa [hseen, or_assoc, ← List.mem_append] at hm
  have hwaits : ∀ x, x ∈ (ms.filter accept).reverse ++ work ↔
      (x ∈ ms ∧ accept x = true) ∨ x ∈ work := by
    intro x
    rw [List.mem_append, List.mem_reverse, List.mem_filter]
  refine ⟨?_, fun m hm => ?_, fun m hm => ?_, fun x hx m hm => ?_, fun x hx ha m hm => ?_⟩
  · have hnew : ms.Nodup := hms ▸ hnodup.filter _
    refine List.nodup_append.mpr ⟨hnew, h.nodup, ?_⟩
    rintro x hx _ hy rfl
    have hfalse := h.unseen x hy
    rw [(hseen x).mpr (.inr hx)] at hfalse
    cases hfalse
  · rcases List.mem_append.mp hm with hm | hm
    · exact ((hfresh m).mp hm).2.2
    · have hfalse := h.unseen m hm
      rw [← Bool.not_eq_true, hseen, not_or, Bool.not_eq_true] at hfalse
      exact hfalse.1
  · rcases List.mem_append.mp hm with hm | hm
    · exact .start List.mem_cons_self ((hfresh m).mp hm).1
    · refine (h.spreads m hm).trans fun x hx => ?_
      rcases (hwaits x).mp hx with ⟨hx, ha⟩ | hx
      · exact .inr ⟨.start List.mem_cons_self ((hfresh x).mp hx).1, ha⟩
      · exact .inl (List.mem_cons_of_mem b hx)
  · rcases List.mem_cons.mp hx with rfl | hx
    · cases hs : seen.has m with
      | true => exact .inl rfl
      | false => exact .inr (List.mem_append_left _ ((hfresh m).mpr ⟨hm, hlt m hm, hs⟩))
    · exact hmet m (h.from_work x ((hwaits x).mpr (.inr hx)) m hm)
  · rcases List.mem_append.mp hx with hx | hx
    · exact hmet m (h.from_work x ((hwaits x).mpr (.inl ⟨hx, ha⟩)) m hm)
    · exact hmet m (h.from_met x hx ha m hm)

theorem meets_spread (hnodup : ∀ b, (t.frontierOf b).Nodup)
    (hlt : ∀ b, ∀ m ∈ t.frontierOf b, m < seen.capacity) :
    Meets t accept work seen (t.spread accept work seen) := by
  fun_induction spread t accept work seen with
  | case1 seen =>
      exact ⟨.nil, fun _ h => absurd h List.not_mem_nil, fun _ h => absurd h List.not_mem_nil,
        fun _ h => absurd h List.not_mem_nil, fun _ h => absurd h List.not_mem_nil⟩
  | case2 b rest seen hf ih => exact Meets.turn (hnodup b) (hlt b) hf (ih hlt)
  | case3 b rest seen m ms hf ih =>
      exact Meets.turn (hnodup b) (hlt b) hf (ih (by rwa [IdSet.capacity_foldl_put]))

theorem forM_require (h : ∀ b ∈ bs, t.contains b = true) : bs.forM t.require = .ok () :=
  forM_eq_ok fun b hb => require_eq_ok_iff.mpr (h b hb)

theorem pairwise_lt_mergeSort {ms : List BlockId} (h : ms.Nodup) :
    (ms.mergeSort fun a b => decide (a ≤ b)).Pairwise (· < ·) := by
  have hsorted : (ms.mergeSort fun a b => decide (a ≤ b)).Pairwise
      fun a b => decide (a ≤ b) = true :=
    List.pairwise_mergeSort (by simpa using fun a b c => Nat.le_trans)
      (by simpa using Nat.le_total) ms
  have hnodup := (List.mergeSort_perm ms fun a b => decide (a ≤ b)).nodup_iff.mpr h
  refine (hsorted.and hnodup).imp ?_
  rintro a b ⟨hle, hne⟩
  exact Nat.lt_of_le_of_ne (of_decide_eq_true hle) hne

theorem Meets.mem_iff {R : BlockId → BlockId → Prop} {root : BlockId} {n : Nat} {z : BlockId}
    (h : Meets t (fun _ => true) bs (.empty n) met)
    (hfront : ∀ a b, b ∈ t.frontierOf a ↔ OnFrontier R root a b) :
    z ∈ met ↔ IteratedFrontier R root {b | b ∈ bs} z := by
  have hmet : ∀ m, (IdSet.empty n).has m = true ∨ m ∈ met → m ∈ met := by
    intro m hm
    rwa [IdSet.has_empty, eq_false Bool.false_ne_true, false_or] at hm
  constructor
  · intro hz
    have hspreads := h.spreads z hz
    clear hz
    induction hspreads with
    | start hb hm => exact .start hb ((hfront _ _).mp hm)
    | next _ _ hm ih => exact .next ih ((hfront _ _).mp hm)
  · intro hz
    induction hz with
    | start ha hab => exact hmet _ (h.from_work _ ha _ ((hfront _ _).mpr hab))
    | next _ hab ih => exact hmet _ (h.from_met _ ih rfl _ ((hfront _ _).mpr hab))

theorem Hangs.exists_iteratedFrontierOf {g : View} {root : BlockId}
    {idoms semis : Array (Option BlockId)} (h : t.Hangs g root) (hg : g.Sound root)
    (hbuilt : ofIdoms g root idoms semis = .ok t) (hbs : ∀ b ∈ bs, g.Reaches root b) :
    ∃ R, t.iteratedFrontierOf bs = .ok R ∧ R.Pairwise (· < ·) ∧
      ∀ z, z ∈ R ↔ IteratedFrontier g.Step root {b | b ∈ bs} z := by
  have hfront : ∀ a b, b ∈ t.frontierOf a ↔ OnFrontier g.Step root a b :=
    fun a => (h.frontierOf_spec hg hbuilt a).2
  have hnodup : ∀ a, (t.frontierOf a).Nodup :=
    fun a => (h.frontierOf_spec hg hbuilt a).1.imp Nat.ne_of_lt
  have hlt : ∀ a, ∀ m ∈ t.frontierOf a, m < (IdSet.empty t.bound).capacity := by
    intro a m hm
    refine (ofIdoms_levelled hbuilt).lt_bound m ((h.contains_iff m).mpr ?_)
    exact ((hfront a m).mp hm).reaches
  have hmeets : Meets t (fun _ => true) bs (.empty t.bound) _ := meets_spread hnodup hlt
  refine ⟨_, ?_, pairwise_lt_mergeSort hmeets.nodup, fun z => ?_⟩
  · rw [iteratedFrontierOf, forM_require fun b hb => (h.contains_iff b).mpr (hbs b hb)]
    rfl
  · rw [List.mem_mergeSort]
    exact hmeets.mem_iff hfront

end DomTree

theorem Rooted.iteratedFrontier_isLeast (g : Rooted) (hg : g.toView.Sound g.root)
    (hroot : ∀ p, g.Reaches g.root p → ¬g.Step p g.root) (bs : List BlockId)
    (hbs : ∀ b ∈ bs, g.Reaches g.root b) (hmem : g.root ∈ bs) :
    ∃ t R, g.dominators = .ok t ∧ t.iteratedFrontierOf bs = .ok R ∧ R.Pairwise (· < ·) ∧
      IsLeast {J : Set BlockId | (∀ z ∈ J, g.Reaches g.root z) ∧
        JoinClosed g.Step {b | b ∈ bs} J} {z | z ∈ R} := by
  obtain ⟨N, hnum, hN⟩ := View.number_finished hg.root_lt hg.inRange
  obtain ⟨t, idoms, semis, hbuilt, hhangs, hsweep, -⟩ := View.exists_tree hg hN
  obtain ⟨R, hR, hsorted, hspec⟩ := hhangs.exists_iteratedFrontierOf hg hbuilt hbs
  refine ⟨t, R, ?_, hR, hsorted, ?_⟩
  · rw [dominators, number, hnum]
    exact hsweep
  · have hset : {z | z ∈ R} = {z | IteratedFrontier g.Step g.root {b | b ∈ bs} z} :=
      Set.ext hspec
    rw [hset]
    exact isLeast_iteratedFrontier hbs hmem hroot

def branchLoop : Rooted :=
  let edges := [(0, 1), (1, 2), (1, 3), (2, 4), (3, 4), (4, 1), (4, 5)]
  (View.ofEdges 6 edges edges).rootedAt 0

theorem Rooted.iteratedFrontier_isLeast_branchLoop :
    branchLoop.toView.Sound branchLoop.root ∧ ∃ t R, branchLoop.dominators = .ok t ∧
      t.iteratedFrontierOf [2, 0] = .ok R ∧ R.Pairwise (· < ·) ∧
      IsLeast {J : Set BlockId | (∀ z ∈ J, branchLoop.Reaches branchLoop.root z) ∧
        JoinClosed branchLoop.Step {b | b ∈ [2, 0]} J} {z | z ∈ R} := by
  have hsound : branchLoop.toView.Sound branchLoop.root :=
    View.sound_ofEdges (by decide) (by decide)
  have hroot : ∀ p, branchLoop.Reaches branchLoop.root p → ¬branchLoop.Step p branchLoop.root := by
    intro p _ hp
    have hmem := (View.mem_lists.mp hp).2
    simp [branchLoop, View.rootedAt] at hmem
  have hone : 1 ∈ branchLoop.succs 0 := by decide
  have htwo : 2 ∈ branchLoop.succs 1 := by decide
  have hbs : ∀ b ∈ [2, 0], branchLoop.Reaches branchLoop.root b := by
    intro b hb
    rcases List.mem_pair.mp hb with rfl | rfl
    · exact (ReflTransGen.refl.tail hone).tail htwo
    · exact .refl
  exact ⟨hsound, Rooted.iteratedFrontier_isLeast branchLoop hsound hroot [2, 0] hbs (by decide)⟩

end ControlFlow

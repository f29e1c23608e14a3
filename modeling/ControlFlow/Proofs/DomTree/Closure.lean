import ControlFlow.Proofs.DomTree.Returned
import ControlFlow.Proofs.IteratedFrontier
import Mathlib.Data.List.Sort

namespace ControlFlow

namespace DomTree

variable {t : DomTree} {accept accept' : BlockId → Bool} {b m z : BlockId}
  {bs met work V V' : List BlockId} {n : Nat} {S J J' R : Set BlockId}

/-- The members of the frontiers of the blocks of `S`, and of those of the accepted blocks of `J`,
are in `J`. -/
def FrontierClosed (t : DomTree) (accept : BlockId → Bool) (S J : Set BlockId) : Prop :=
  ∀ b F, b ∈ S ∨ b ∈ J ∧ accept b = true → t.frontier b = .ok F → ∀ m ∈ F, m ∈ J

theorem frontier_eq (hb : t.contains b = true) : t.frontier b = .ok (t.frontierOf b) := by
  rw [frontier, require_eq_ok_iff.mpr hb]
  rfl

theorem mem_frontierOf_of_frontier {F : List BlockId} (hF : t.frontier b = .ok F) (hm : m ∈ F) :
    m ∈ t.frontierOf b := by
  obtain ⟨_, -, hF⟩ := bind_eq_ok_iff.mp hF
  cases hF
  exact hm

namespace FrontierClosed

theorem inter (h : t.FrontierClosed accept S J) (h' : t.FrontierClosed accept' S J')
    (haccept : ∀ m ∈ J, accept m = true → accept' m = true) :
    t.FrontierClosed accept S (J ∩ J') := by
  intro b F hb hF m hm
  rcases hb with hb | ⟨⟨hbJ, hbJ'⟩, ha⟩
  · exact ⟨h b F (.inl hb) hF m hm, h' b F (.inl hb) hF m hm⟩
  · exact ⟨h b F (.inr ⟨hbJ, ha⟩) hF m hm, h' b F (.inr ⟨hbJ', haccept b hbJ ha⟩) hF m hm⟩

theorem exists_frontier (h : IsLeast {J | t.FrontierClosed accept S J} R) (hz : z ∈ R) :
    ∃ b F, (b ∈ S ∨ b ∈ R ∧ accept b = true) ∧ t.frontier b = .ok F ∧ z ∈ F := by
  have hclosed : t.FrontierClosed accept S
      {m | ∃ b F, (b ∈ S ∨ b ∈ R ∧ accept b = true) ∧ t.frontier b = .ok F ∧ m ∈ F} := by
    rintro b F (hb | ⟨⟨c, G, hc, hG, hbG⟩, ha⟩) hF m hm
    · exact ⟨b, F, .inl hb, hF, hm⟩
    · exact ⟨b, F, .inr ⟨h.1 c G hc hG b hbG, ha⟩, hF, hm⟩
  exact h.2 hclosed hz

end FrontierClosed

theorem Returned.meets_spread (h : t.Returned) (accept : BlockId → Bool) (work : List BlockId) :
    Meets t accept work (.empty t.bound) (t.spread accept work (.empty t.bound)) :=
  DomTree.meets_spread (fun b => (h.frontierOf_pairwise b).imp Nat.ne_of_lt)
    fun _ m hm => h.levelled.lt_bound m (h.contains_of_mem_frontierOf hm)

theorem Returned.contains_of_spreads (h : t.Returned) (hm : Spreads t accept work m) :
    t.contains m = true := by
  cases hm with
  | start _ hm => exact h.contains_of_mem_frontierOf hm
  | next _ _ hm => exact h.contains_of_mem_frontierOf hm

theorem Meets.closed (hmet : Meets t accept work (.empty n) met) :
    t.FrontierClosed accept {b | b ∈ work} {m | m ∈ met} := by
  have hnew : ∀ m, (IdSet.empty n).has m = true ∨ m ∈ met → m ∈ met := by
    intro m hm
    rwa [IdSet.has_empty, eq_false Bool.false_ne_true, false_or] at hm
  rintro b F (hb | ⟨hb, ha⟩) hF m hm
  · exact hnew m (hmet.from_work b hb m (mem_frontierOf_of_frontier hF hm))
  · exact hnew m (hmet.from_met b hb ha m (mem_frontierOf_of_frontier hF hm))

theorem Returned.mem_of_spreads (h : t.Returned) (hwork : ∀ b ∈ work, t.contains b = true)
    (hJ : t.FrontierClosed accept {b | b ∈ work} J) (hm : Spreads t accept work m) : m ∈ J := by
  induction hm with
  | start hb hm => exact hJ _ _ (.inl hb) (frontier_eq (hwork _ hb)) _ hm
  | next hb ha hm ih =>
      exact hJ _ _ (.inr ⟨ih, ha⟩) (frontier_eq (h.contains_of_spreads hb)) _ hm

theorem Returned.isLeast_spread (h : t.Returned) (hwork : ∀ b ∈ work, t.contains b = true) :
    IsLeast {J | t.FrontierClosed accept {b | b ∈ work} J}
      {m | m ∈ t.spread accept work (.empty t.bound)} := by
  have hmet := h.meets_spread accept work
  exact ⟨hmet.closed, fun J hJ m hm => h.mem_of_spreads hwork hJ (hmet.spreads m hm)⟩

theorem Returned.exists_iteratedFrontierOf (h : t.Returned)
    (hbs : ∀ b ∈ bs, t.contains b = true) :
    ∃ R, t.iteratedFrontierOf bs = .ok R ∧ R.Pairwise (· < ·) ∧
      IsLeast {J | t.FrontierClosed (fun _ => true) {b | b ∈ bs} J} {z | z ∈ R} := by
  refine ⟨_, ?_, pairwise_lt_mergeSort (h.meets_spread (fun _ => true) bs).nodup, ?_⟩
  · rw [iteratedFrontierOf, forM_require hbs]
    rfl
  · simp only [List.mem_mergeSort]
    exact h.isLeast_spread hbs

theorem setOf_mem_singleton (b : BlockId) : {c | c ∈ [b]} = ({b} : Set BlockId) :=
  Set.ext fun _ => List.mem_singleton

theorem Returned.exists_prunedIteratedFrontier (h : t.Returned) (hb : t.contains b = true)
    (accept : BlockId → Bool) :
    ∃ V, t.prunedIteratedFrontier b accept = .ok V ∧ V.Nodup ∧
      IsLeast {J | t.FrontierClosed accept {b} J} {m | m ∈ V} := by
  refine ⟨_, ?_, (h.meets_spread accept [b]).nodup, ?_⟩
  · rw [prunedIteratedFrontier, require_eq_ok_iff.mpr hb]
    rfl
  · rw [← setOf_mem_singleton]
    exact h.isLeast_spread (List.forall_mem_singleton.mpr hb)

theorem Returned.iteratedFrontierOf_isLeast (h : t.Returned)
    (hbs : ∀ b ∈ bs, t.contains b = true) :
    ∃ R, t.iteratedFrontierOf bs = .ok R ∧ R.Pairwise (· < ·) ∧
      IsLeast {J | t.FrontierClosed (fun _ => true) {b | b ∈ bs} J} {z | z ∈ R} ∧
      (∀ cs, (∀ b, b ∈ cs ↔ b ∈ bs) → t.iteratedFrontierOf cs = .ok R) ∧
      ∀ z ∈ R, ∃ b F, (b ∈ bs ∨ b ∈ R) ∧ t.frontier b = .ok F ∧ z ∈ F := by
  obtain ⟨R, hR, hsorted, hleast⟩ := h.exists_iteratedFrontierOf hbs
  refine ⟨R, hR, hsorted, hleast, fun cs hcs => ?_, fun z hz => ?_⟩
  · obtain ⟨R', hR', hsorted', hleast'⟩ :=
      h.exists_iteratedFrontierOf fun b hb => hbs b ((hcs b).mp hb)
    have hsame : {b | b ∈ cs} = {b | b ∈ bs} := Set.ext hcs
    rw [hsame] at hleast'
    have hmem := Set.ext_iff.mp (hleast'.unique hleast)
    rw [hR', hsorted'.eq_of_mem_iff hsorted hmem]
  · obtain ⟨b, F, hb, hF, hzF⟩ := FrontierClosed.exists_frontier hleast hz
    exact ⟨b, F, hb.imp_right And.left, hF, hzF⟩

theorem Returned.iteratedFrontierOf_isLeast_tangle :
    ∃ t, tangle.dominators = .ok t ∧ t.Returned ∧ (∀ b ∈ [2, 1, 2], t.contains b = true) ∧
      ∃ R, t.iteratedFrontierOf [2, 1, 2] = .ok R ∧ R.Pairwise (· < ·) ∧
        IsLeast {J | t.FrontierClosed (fun _ => true) {b | b ∈ [2, 1, 2]} J} {z | z ∈ R} ∧
        t.iteratedFrontierOf [1, 2] = .ok R ∧
        ∀ z ∈ R, ∃ b F, (b ∈ [2, 1, 2] ∨ b ∈ R) ∧ t.frontier b = .ok F ∧ z ∈ F := by
  obtain ⟨t, ht, hreturned, hcontains⟩ := exists_returned_tangle
  have hbs : ∀ b ∈ [2, 1, 2], t.contains b = true := fun b hb => hcontains b (by revert b; decide)
  obtain ⟨R, hR, hsorted, hleast, hsame, hfrontier⟩ := hreturned.iteratedFrontierOf_isLeast hbs
  exact ⟨t, ht, hreturned, hbs, R, hR, hsorted, hleast, hsame [1, 2] (by simp), hfrontier⟩

theorem Returned.prunedIteratedFrontier_isLeast (h : t.Returned) (hb : t.contains b = true)
    (accept : BlockId → Bool) :
    ∃ V, t.prunedIteratedFrontier b accept = .ok V ∧ V.Nodup ∧
      IsLeast {J | t.FrontierClosed accept {b} J} {m | m ∈ V} ∧
      ((∀ m, accept m = true) →
        ∃ R, t.iteratedFrontier b = .ok R ∧ ∀ m, m ∈ V ↔ m ∈ R) ∧
      ∀ accept', (∀ m ∈ V, accept m = true → accept' m = true) →
        ∃ V', t.prunedIteratedFrontier b accept' = .ok V' ∧ V ⊆ V' := by
  obtain ⟨V, hV, hnodup, hleast⟩ := h.exists_prunedIteratedFrontier hb accept
  refine ⟨V, hV, hnodup, hleast, fun hall => ?_, fun accept' haccept => ?_⟩
  · obtain ⟨R, hR, -, hleast'⟩ := h.exists_iteratedFrontierOf (List.forall_mem_singleton.mpr hb)
    rw [setOf_mem_singleton, ← show accept = fun _ => true from funext hall] at hleast'
    exact ⟨R, hR, Set.ext_iff.mp (hleast.unique hleast')⟩
  · obtain ⟨V', hV', -, hleast'⟩ := h.exists_prunedIteratedFrontier hb accept'
    have hboth := hleast.1.inter hleast'.1 haccept
    exact ⟨V', hV', fun m hm => (hleast.2 hboth hm).2⟩

theorem Returned.prunedIteratedFrontier_isLeast_tangle :
    ∃ t, tangle.dominators = .ok t ∧ t.Returned ∧ t.contains 2 = true ∧
      ∃ V, t.prunedIteratedFrontier 2 (· != 1) = .ok V ∧ V.Nodup ∧
        IsLeast {J | t.FrontierClosed (· != 1) {2} J} {m | m ∈ V} ∧
        ∃ V', t.prunedIteratedFrontier 2 (fun _ => true) = .ok V' ∧ V ⊆ V' := by
  obtain ⟨t, ht, hreturned, hcontains⟩ := exists_returned_tangle
  have hb : t.contains 2 = true := hcontains 2 (by decide)
  obtain ⟨V, hV, hnodup, hleast, -, hgrows⟩ :=
    hreturned.prunedIteratedFrontier_isLeast hb (· != 1)
  exact ⟨t, ht, hreturned, hb, V, hV, hnodup, hleast, hgrows (fun _ => true) fun _ _ _ => rfl⟩

end DomTree

end ControlFlow

import ControlFlow.Proofs.DomTree.Hunt

namespace ControlFlow.DomTree

variable {t : DomTree} {a b c : BlockId}

inductive Query where
  | idom (b : BlockId)
  | children (b : BlockId)
  | depth (b : BlockId)
  | dominates (a b : BlockId)
  | strictlyDominates (a b : BlockId)
  | dominators (b : BlockId)
  | strictDominators (b : BlockId)
  | commonDominator (a b : BlockId)
  | dominated (b : BlockId)
  | strictlyDominated (b : BlockId)
  | frontier (b : BlockId)
  | iteratedFrontier (b : BlockId)
  | iteratedFrontierOf (bs : List BlockId)
  | prunedIteratedFrontier (b : BlockId) (accept : BlockId → Bool)

inductive Answer where
  | optional (b : Option BlockId)
  | block (b : BlockId)
  | blocks (bs : List BlockId)
  | number (n : Nat)
  | verdict (q : Bool)

def Answer.members : Answer → List BlockId
  | optional b => b.toList
  | block b => [b]
  | blocks bs => bs
  | number _ => []
  | verdict _ => []

theorem Returned.contains_of_mem_spread (h : t.Returned) {accept : BlockId → Bool}
    {work : List BlockId} (hc : c ∈ t.spread accept work (.empty t.bound)) : t.contains c = true :=
  h.contains_of_spreads ((h.meets_spread accept work).spreads c hc)

namespace Query

def args : Query → List BlockId
  | idom b | children b | depth b | dominators b | strictDominators b | dominated b
  | strictlyDominated b | frontier b | iteratedFrontier b | prunedIteratedFrontier b _ => [b]
  | dominates a b | strictlyDominates a b => [a, b]
  | commonDominator a b => [b, a]
  | iteratedFrontierOf bs => bs

def ask (t : DomTree) : Query → Except Fault Answer
  | idom b => .optional <$> t.idom b
  | children b => .blocks <$> t.children b
  | depth b => .number <$> t.depth b
  | dominates a b => .verdict <$> t.dominates a b
  | strictlyDominates a b => .verdict <$> t.strictlyDominates a b
  | dominators b => .blocks <$> t.dominators b
  | strictDominators b => .blocks <$> t.strictDominators b
  | commonDominator a b => .block <$> t.commonDominator a b
  | dominated b => .blocks <$> t.dominated b
  | strictlyDominated b => .blocks <$> t.strictlyDominated b
  | frontier b => .blocks <$> t.frontier b
  | iteratedFrontier b => .blocks <$> t.iteratedFrontier b
  | iteratedFrontierOf bs => .blocks <$> t.iteratedFrontierOf bs
  | prunedIteratedFrontier b accept => .blocks <$> t.prunedIteratedFrontier b accept

def stepwise (t : DomTree) : Query → Except Fault Answer
  | idom b => .optional <$> Stepwise.idom t b
  | children b => .blocks <$> Stepwise.children t b
  | depth b => .number <$> Stepwise.depth t b
  -- the intervals are read by the check alone
  | dominates a b => .verdict <$> t.dominates a b
  | strictlyDominates a b => .verdict <$> t.strictlyDominates a b
  | dominators b => .blocks <$> Stepwise.dominators t b
  | strictDominators b => .blocks <$> Stepwise.strictDominators t b
  | commonDominator a b => .block <$> Stepwise.commonDominator t a b
  | dominated b => .blocks <$> Stepwise.dominated t b
  | strictlyDominated b => .blocks <$> Stepwise.strictlyDominated t b
  | frontier b => .blocks <$> Stepwise.frontier t b
  | iteratedFrontier b => .blocks <$> Stepwise.iteratedFrontierOf t [b]
  | iteratedFrontierOf bs => .blocks <$> Stepwise.iteratedFrontierOf t bs
  | prunedIteratedFrontier b accept =>
      .blocks <$> Stepwise.prunedIteratedFrontier t b fun _ => accept

theorem stepwise_eq (h : t.Returned) (q : Query) : q.stepwise t = q.ask t := by
  cases q with
  | idom b => rw [stepwise, Stepwise.idom_eq h, ask]
  | children b => rw [stepwise, Stepwise.children_eq h, ask]
  | depth b => rw [stepwise, Stepwise.depth_eq h, ask]
  | dominates a b => rfl
  | strictlyDominates a b => rfl
  | dominators b => rw [stepwise, Stepwise.dominators_eq h, ask]
  | strictDominators b => rw [stepwise, Stepwise.strictDominators_eq h, ask]
  | commonDominator a b => rw [stepwise, Stepwise.commonDominator_eq h, ask]
  | dominated b => rw [stepwise, Stepwise.dominated_eq h, ask]
  | strictlyDominated b => rw [stepwise, Stepwise.strictlyDominated_eq h, ask]
  | frontier b => rw [stepwise, Stepwise.frontier_eq h, ask]
  | iteratedFrontier b => rw [stepwise, Stepwise.iteratedFrontierOf_eq h, ask]; rfl
  | iteratedFrontierOf bs => rw [stepwise, Stepwise.iteratedFrontierOf_eq h, ask]
  | prunedIteratedFrontier b accept =>
      rw [stepwise, Stepwise.prunedIteratedFrontier_const_eq h, ask]

section Checks

variable {β : Type} (f : β → Answer) (y : β)

theorem map_checked_list (bs : List BlockId) :
    f <$> (do bs.forM t.require; return y) = (do bs.forM t.require; return f y) := by
  rw [map_bind]
  rfl

theorem map_checked_one :
    f <$> (do t.require b; return y) = (do [b].forM t.require; return f y) := by
  simp

theorem map_checked_two :
    f <$> (do t.require a; t.require b; return y) = (do [a, b].forM t.require; return f y) := by
  simp

end Checks

theorem dominates_checked :
    t.dominates a b = (do t.require a; t.require b; return t.encloses b a) := by
  by_cases ha : t.contains a = true
  · by_cases hb : t.contains b = true
    · rw [dominates_eq ha hb, require_eq_ok_iff.mpr ha, require_eq_ok_iff.mpr hb]
      rfl
    · have hne : a ≠ b := fun e => hb (e ▸ ha)
      rw [DomTree.dominates, if_neg hne, DomTree.strictlyDominates, require_eq_ok_iff.mpr ha,
        require, if_neg hb]
      rfl
  · rw [DomTree.dominates, DomTree.strictlyDominates, require, if_neg ha]
    split <;> rfl

theorem exists_reply (h : t.Returned) (q : Query) :
    ∃ r, q.ask t = (do q.args.forM t.require; return r) ∧
      ((∀ b ∈ q.args, t.contains b = true) → ∀ c ∈ r.members, t.contains c = true) := by
  have ht := h.threaded
  have hsorted : ∀ bs, ∀ c ∈ (t.spread (fun _ => true) bs (.empty t.bound)).mergeSort (· ≤ ·),
      t.contains c = true :=
    fun bs c hc => h.contains_of_mem_spread (List.mem_mergeSort.mp hc)
  have hnone : ∀ c ∈ ([] : List BlockId), t.contains c = true :=
    fun _ hc => absurd hc List.not_mem_nil
  cases q with
  | idom b =>
      exact ⟨.optional (t.idom? b), map_checked_one _ _,
        fun _ p hp => ht.contains_idom b p (Option.mem_toList.mp hp)⟩
  | children b =>
      exact ⟨.blocks (t.kidsOf b), map_checked_one _ _,
        fun hb _ hc => ht.contains_kid (hb b List.mem_cons_self) hc⟩
  | depth b => exact ⟨.number (t.depthOf b), map_checked_one _ _, fun _ => hnone⟩
  | dominates a b =>
      exact ⟨.verdict (t.encloses b a), (congrArg _ dominates_checked).trans (map_checked_two _ _),
        fun _ => hnone⟩
  | strictlyDominates a b =>
      exact ⟨.verdict (t.above a b), map_checked_two _ _, fun _ => hnone⟩
  | dominators b =>
      exact ⟨.blocks (t.chain b), map_checked_one _ _,
        fun hb _ hc => ht.contains_of_mem_chain (hb b List.mem_cons_self) hc⟩
  | strictDominators b =>
      refine ⟨.blocks ((t.chain b).drop 1), map_checked_one _ _, fun hb _ hc => ?_⟩
      exact ht.contains_of_mem_chain (hb b List.mem_cons_self) (List.mem_of_mem_drop hc)
  | commonDominator a b =>
      refine ⟨.block (((t.chain a).find? (t.encloses b)).getD t.root), map_checked_two _ _,
        fun hab c hc => ?_⟩
      have hb := hab b List.mem_cons_self
      have ha := hab a (List.mem_cons_of_mem b List.mem_cons_self)
      obtain ⟨d, hd, hnearest⟩ := ht.exists_nearest ha hb
      rw [hd] at hc
      rw [List.mem_singleton.mp hc]
      exact ht.contains_up ha ((hnearest d).mp (.refl d)).1
  | dominated b =>
      exact ⟨.blocks (t.subtree t.size b), map_checked_one _ _,
        fun hb _ hc => ht.contains_of_mem_subtree (hb b List.mem_cons_self) hc⟩
  | strictlyDominated b =>
      refine ⟨.blocks ((t.subtree t.size b).drop 1), map_checked_one _ _, fun hb _ hc => ?_⟩
      exact ht.contains_of_mem_subtree (hb b List.mem_cons_self) (List.mem_of_mem_drop hc)
  | frontier b =>
      exact ⟨.blocks (t.frontierOf b), map_checked_one _ _,
        fun _ _ hc => h.contains_of_mem_frontierOf hc⟩
  | iteratedFrontier b => exact ⟨.blocks _, map_checked_list _ _ [b], fun _ => hsorted [b]⟩
  | iteratedFrontierOf bs => exact ⟨.blocks _, map_checked_list _ _ bs, fun _ => hsorted bs⟩
  | prunedIteratedFrontier b accept =>
      exact ⟨.blocks _, map_checked_one _ _,
        fun _ _ hc => h.contains_of_mem_spread hc⟩

/-- The question is refused exactly where an argument is outside the tree, and the refusal names
such an argument and the root. Otherwise no table and no set stands in the way, and the answer stays
in the tree. -/
structure Guarded (t : DomTree) (q : Query) : Prop where
  stepwise_eq : q.stepwise t = q.ask t
  refused_iff : (∃ f, q.ask t = .error f) ↔ ∃ b ∈ q.args, t.contains b = false
  refused : ∀ f, q.ask t = .error f → ∃ b ∈ q.args, t.contains b = false ∧
    f = .outsideTree b t.root ∧ f.message =
      "block " ++ b.text ++ " is not part of the dominator tree rooted at " ++ t.root.text
  answered : ∀ r, q.ask t = .ok r → ∀ c ∈ r.members, t.contains c = true

theorem guarded (h : t.Returned) (q : Query) : q.Guarded t := by
  obtain ⟨r, hask, hmembers⟩ := q.exists_reply h
  rcases Stepwise.forM_require_cases (t := t) q.args with ⟨hargs, hok⟩ | ⟨b, hb, hout, herror⟩
  · have hask : q.ask t = .ok r := by rw [hask, hok]; rfl
    refine ⟨q.stepwise_eq h, iff_of_false ?_ ?_, fun f hf => ?_, fun r' hr' => ?_⟩
    · rintro ⟨f, hf⟩
      exact absurd (hask.symm.trans hf) nofun
    · rintro ⟨b, hb, hout⟩
      exact Bool.false_ne_true (hout.symm.trans (hargs b hb))
    · exact absurd (hask.symm.trans hf) nofun
    · rw [← Except.ok.inj (hask.symm.trans hr')]
      exact hmembers hargs
  · have hask : q.ask t = .error (.outsideTree b t.root) := by rw [hask, herror]; rfl
    refine ⟨q.stepwise_eq h, iff_of_true ⟨_, hask⟩ ⟨b, hb, hout⟩, fun f hf => ?_, fun r' hr' => ?_⟩
    · rw [← Except.error.inj (hask.symm.trans hf)]
      exact ⟨b, hb, hout, rfl, rfl⟩
    · exact absurd (hask.symm.trans hr') nofun

end Query

theorem Returned.guarded_queries (h : t.Returned) :
    (∀ q : Query, q.Guarded t) ∧
      ∀ b (visit : List BlockId → BlockId → Bool), ∃ accept : BlockId → Bool,
        (∀ m, ∃ shown, accept m = visit shown m) ∧
        Stepwise.prunedIteratedFrontier t b visit = t.prunedIteratedFrontier b accept :=
  ⟨fun q => q.guarded h, fun b visit => Stepwise.prunedIteratedFrontier_eq h b visit⟩

theorem Returned.guarded_queries_tangle :
    ∃ t, tangle.dominators = .ok t ∧ t.Returned ∧
      (Query.iteratedFrontierOf [2, 4, 1, 7]).Guarded t ∧ (Query.commonDominator 3 2).Guarded t ∧
      ∃ accept : BlockId → Bool,
        Stepwise.prunedIteratedFrontier t 2 (fun shown _ => decide (shown.length < 2)) =
          t.prunedIteratedFrontier 2 accept := by
  obtain ⟨t, ht, hreturned, -⟩ := exists_returned_tangle
  obtain ⟨hqueries, hvisitors⟩ := hreturned.guarded_queries
  obtain ⟨accept, -, haccept⟩ := hvisitors 2 fun shown _ => decide (shown.length < 2)
  exact ⟨t, ht, hreturned, hqueries _, hqueries _, accept, haccept⟩

end ControlFlow.DomTree

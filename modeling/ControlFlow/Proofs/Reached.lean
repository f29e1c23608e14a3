import ControlFlow.Proofs.Agreement

namespace ControlFlow

variable {g g' : View} {root : BlockId} {stack : List Frame} {N : Numbering} {t : DomTree}

structure View.AlikeFrom (g g' : View) (root : BlockId) : Prop where
  bound_eq : g'.bound = g.bound
  succs_eq : ∀ b, g.Reaches root b → g'.succs b = g.succs b
  preds_eq : ∀ b, g.Reaches root b → ∀ q : BlockId → Bool,
    (∀ p, q p = true → g.Reaches root p) → (g'.preds b).filter q = (g.preds b).filter q

theorem DomTree.frontierTable_eq (h : ∀ b, t.contains b = true →
    (g'.preds b).filter t.contains = (g.preds b).filter t.contains) :
    t.frontierTable g' = t.frontierTable g := by
  have hjoin : t.markJoin g' = t.markJoin g := by
    funext b F
    rw [markJoin, markJoin]
    by_cases hb : t.contains b = true
    · rw [h b hb]
    · rw [if_neg fun hjoin => hb hjoin.1, if_neg fun hjoin => hb hjoin.1]
  rw [frontierTable, frontierTable, hjoin]

theorem DomTree.ofIdoms_eq {idoms semis : Array (Option BlockId)}
    (ht : ofIdoms g root idoms semis = .ok t) (h : ∀ b, t.contains b = true →
      (g'.preds b).filter t.contains = (g.preds b).filter t.contains) :
    ofIdoms g' root idoms semis = .ok t := by
  obtain ⟨N, hN, rfl⟩ := exists_buildable ht
  have hfrontiers : (ofNumbering g' root idoms semis N).frontiers =
      (ofNumbering g root idoms semis N).frontiers := by
    rw [frontiers_ofNumbering semis, frontiers_ofNumbering semis, ← frontierTable_eq h]
    exact frontierTable_congr (t := ofNumbering g' root idoms semis N)
      (u := ofNumbering g root idoms semis N) rfl rfl rfl rfl g'
  rw [hN.ofIdoms_eq]
  exact congrArg (fun F => Except.ok { ofNumbering g root idoms semis N with frontiers := F })
    hfrontiers

namespace View.AlikeFrom

variable (h : g.AlikeFrom g' root)

include h

theorem run_eq (hstack : ∀ f ∈ stack, ∀ v ∈ f.rest, g.Reaches root v) :
    Numbering.run g' stack N = Numbering.run g stack N := by
  fun_induction Numbering.run g stack N with
  | case1 N => rw [Numbering.run]
  | case2 u stack N ih =>
      rw [Numbering.run]
      exact ih fun f hf => hstack f (List.mem_cons_of_mem _ hf)
  | case3 u v vs stack N hv =>
      rw [Numbering.run]
      split <;> simp_all only [reduceCtorEq]
  | case4 u v vs stack N hv ih =>
      obtain ⟨hframe, hstack⟩ := List.forall_mem_cons.mp hstack
      obtain ⟨hv', hvs⟩ := List.forall_mem_cons.mp hframe
      have hrest := ih (List.forall_mem_cons.mpr ⟨fun w hw => hv'.tail hw,
        List.forall_mem_cons.mpr ⟨hvs, hstack⟩⟩)
      rw [Numbering.run]
      split
      · simp_all only [reduceCtorEq]
      · rw [h.succs_eq v hv', hrest]
      · simp_all only [reduceCtorEq, Option.some.injEq]
  | case5 u v vs stack N j hv ih =>
      obtain ⟨hframe, hstack⟩ := List.forall_mem_cons.mp hstack
      obtain ⟨-, hvs⟩ := List.forall_mem_cons.mp hframe
      have hrest := ih (List.forall_mem_cons.mpr ⟨hvs, hstack⟩)
      rw [Numbering.run]
      split
      · simp_all only [reduceCtorEq]
      · simp_all only [reduceCtorEq, Option.some.injEq]
      · exact hrest

theorem reaches {b : BlockId} (hb : g.Reaches root b) : g'.Reaches root b := by
  induction hb with
  | refl => exact .refl
  | @tail c d hc hcd ih =>
      refine ih.tail ?_
      change d ∈ g'.succs c
      rw [h.succs_eq c hc]
      exact hcd

theorem number_eq : g'.number root = g.number root := by
  rw [View.number, View.number, h.bound_eq, h.succs_eq root .refl, h.run_eq]
  intro f hf v hv
  rw [List.mem_singleton.mp hf] at hv
  exact .single hv

theorem spanning_eq (hN : N.Finished g root) : N.spanning g' = N.spanning g := by
  have hreach : ∀ p, (N.rank? p).isSome = true → g.Reaches root p := by
    intro p hp
    obtain ⟨i, hi⟩ := Option.isSome_iff_exists.mp hp
    rw [← (Numbering.rank?_eq_some_iff hN).mp hi]
    exact Numbering.Finished.reaches_block hN i
  have hranked : ∀ l : List BlockId,
      (l.filter fun p => (N.rank? p).isSome).filterMap N.rank? = l.filterMap N.rank? := by
    intro l
    rw [List.filterMap_filter]
    refine List.filterMap_congr fun p _ => ?_
    cases N.rank? p <;> rfl
  rw [Numbering.spanning, Numbering.spanning]
  congr 2
  funext i
  rw [← hranked (g'.preds _), ← hranked (g.preds _),
    h.preds_eq _ (Numbering.Finished.reaches_block hN i) _ hreach]

theorem dominators_eq (hg : g.Sound root) (hN : N.Finished g root) :
    g'.dominators N = g.dominators N := by
  have hpos : 0 < N.preorder.size := hN.pre.lt_size hN.root_first
  obtain ⟨idom, semi, hsolve, hspec⟩ :=
    Spanning.solve_spec (Numbering.Finished.spanning_depthFirst hN hg) hpos
  have hidom := fun i hi => (hspec i hi).1
  obtain ⟨t, ht⟩ := exists_ofIdoms_tableOf hg hN hidom (N.tableOf semi)
  have hhangs := hangs_of_ofIdoms hg hN hidom ht
  have hfits : N.requireFits g' = .ok () := by
    rw [Numbering.requireFits, h.bound_eq]
    exact Numbering.requireFits_eq hN
  rw [View.dominators_eq_ofIdoms (Numbering.requireFits_eq hN) hsolve,
    View.dominators_eq_ofIdoms hfits ((congrArg (·.solve hpos) (h.spanning_eq hN)).trans hsolve),
    hN.root_eq, ht]
  refine DomTree.ofIdoms_eq ht fun b hb => ?_
  exact h.preds_eq b ((hhangs.contains_iff b).mp hb) _ fun p => (hhangs.contains_iff p).mp

end View.AlikeFrom

end ControlFlow

import ControlFlow.Proofs.DomTree.Threaded

namespace ControlFlow.DomTree

variable {t : DomTree} {a b c p : BlockId} {S : Set BlockId} {h k : Nat}

theorem chain_top (hb : t.idom? b = none) : t.chain b = [b] := by
  rw [chain]
  cases t.depthOf b with
  | zero => rfl
  | succ n => rw [climb, hb]

theorem Levelled.chain_eq (ht : Levelled t) (hb : t.idom? b = some p) :
    t.chain b = b :: t.chain p := by
  rw [chain, ht.depth b p hb, climb, hb]
  rfl

theorem Grown.idom_eq_ok_iff (ht : Grown t) : t.idom b = .ok (some p) ↔ t.idom? b = some p := by
  constructor
  · intro hp
    obtain ⟨_, -, hp⟩ := bind_eq_ok_iff.mp hp
    exact Except.ok.inj hp
  · intro hp
    rw [idom, require_eq_ok_iff.mpr ((ht.contains_iff b).mpr (.inr ⟨p, hp⟩)), hp]
    rfl

def HeightLe (t : DomTree) (b : BlockId) (h : Nat) : Prop :=
  ∀ c, Above t.idom? b c → t.depthOf c ≤ t.depthOf b + h

namespace Threaded

variable (ht : Threaded t)

include ht

section Upward

theorem mem_chain (hb : t.contains b = true) : a ∈ t.chain b ↔ Above t.idom? a b := by
  refine ht.rec_root ?_ (fun x p hp ih => ?_) hb
  · rw [chain_top ht.idom_root, List.mem_singleton, Above.iff_of_top ht.idom_root]
  · rw [ht.chain_eq hp, List.mem_cons, Above.iff_of_up hp, ih]

theorem head?_chain (b : BlockId) : (t.chain b).head? = some b := by
  cases hb : t.idom? b with
  | none => rw [chain_top hb, List.head?_singleton]
  | some p => rw [ht.chain_eq hb, List.head?_cons]

theorem isChain_chain (hb : t.contains b = true) :
    (t.chain b).IsChain fun x y => t.idom x = .ok (some y) := by
  refine ht.rec_root ?_ (fun x p hp ih => ?_) hb
  · rw [chain_top ht.idom_root]
    exact .singleton _
  · rw [ht.chain_eq hp, List.isChain_cons]
    refine ⟨fun y hy => ?_, ih⟩
    rw [ht.head?_chain] at hy
    cases hy
    exact ht.idom_eq_ok_iff.mpr hp

theorem getLast?_chain (hb : t.contains b = true) : (t.chain b).getLast? = some t.root := by
  refine ht.rec_root ?_ (fun x p hp ih => ?_) hb
  · rw [chain_top ht.idom_root, List.getLast?_singleton]
  · rw [ht.chain_eq hp, List.getLast?_cons, ih, Option.getD_some]

theorem length_chain (hb : t.contains b = true) : (t.chain b).length = t.depthOf b + 1 := by
  refine ht.rec_root ?_ (fun x p hp ih => ?_) hb
  · rw [chain_top ht.idom_root, ht.depth_root, List.length_singleton]
  · rw [ht.chain_eq hp, List.length_cons, ih, ht.depth x p hp]

end Upward

section Downward

theorem heightLe_size (hb : t.contains b = true) : t.HeightLe b t.size := by
  intro c hc
  have hlt := ht.depthOf_lt_size (ht.contains_of_above hb hc)
  omega

theorem above_kid (hc : c ∈ t.kidsOf b) : Above t.idom? b c :=
  .of_up ((ht.mem_kids b c).mp hc) (.refl b)

theorem contains_kid (hb : t.contains b = true) (hc : c ∈ t.kidsOf b) : t.contains c = true :=
  ht.contains_of_above hb (ht.above_kid hc)

theorem depth_kid (hc : c ∈ t.kidsOf b) : t.depthOf c = t.depthOf b + 1 :=
  ht.depth c b ((ht.mem_kids b c).mp hc)

theorem kidsOf_eq_nil (hb : t.HeightLe b 0) : t.kidsOf b = [] := by
  refine List.eq_nil_iff_forall_not_mem.mpr fun c hc => ?_
  have hle := hb c (ht.above_kid hc)
  rw [ht.depth_kid hc] at hle
  omega

theorem kids_heightLe (hb : t.HeightLe b (h + 1)) (hc : c ∈ t.kidsOf b) : t.HeightLe c h := by
  intro d hd
  have hle := hb d (.trans (ht.above_kid hc) hd)
  rw [ht.depth_kid hc]
  omega

theorem above_of_mem_subtree (hc : c ∈ t.subtree h b) : Above t.idom? b c := by
  induction h generalizing b with
  | zero => exact List.mem_singleton.mp hc ▸ .refl c
  | succ h ih =>
      rcases List.mem_cons.mp hc with rfl | hc
      · exact .refl c
      · obtain ⟨k, hk, hc⟩ := List.mem_flatMap.mp hc
        exact .trans (ht.above_kid hk) (ih hc)

theorem contains_of_mem_subtree (hb : t.contains b = true) (hc : c ∈ t.subtree h b) :
    t.contains c = true :=
  ht.contains_of_above hb (ht.above_of_mem_subtree hc)

theorem mem_subtree (hb : t.HeightLe b h) : c ∈ t.subtree h b ↔ Above t.idom? b c := by
  refine ⟨ht.above_of_mem_subtree, fun hc => ?_⟩
  induction h generalizing b with
  | zero =>
      rcases hc.cases_tail with rfl | ⟨k, -, hk⟩
      · exact List.mem_singleton_self _
      · have hmem := (ht.mem_kids b k).mpr hk
        simp [ht.kidsOf_eq_nil hb] at hmem
  | succ h ih =>
      rcases hc.cases_tail with rfl | ⟨k, hck, hk⟩
      · exact List.mem_cons_self
      · have hmem := (ht.mem_kids b k).mpr hk
        exact List.mem_cons_of_mem b
          (List.mem_flatMap.mpr ⟨k, hmem, ih (ht.kids_heightLe hb hmem) hck⟩)

theorem eq_of_above (ha : Above t.idom? a c) (hb : Above t.idom? b c)
    (hdepth : t.depthOf a = t.depthOf b) : a = b := by
  by_contra hne
  exact ((ha.of_rank_le ht.rank hb hdepth.le).rank_lt ht.rank hne).ne hdepth

theorem disjoint_subtree (hne : a ≠ b) (hdepth : t.depthOf a = t.depthOf b) :
    (t.subtree h a).Disjoint (t.subtree h b) := by
  intro c hac hbc
  exact hne (ht.eq_of_above (ht.above_of_mem_subtree hac) (ht.above_of_mem_subtree hbc) hdepth)

theorem visits_subtree (hb : t.HeightLe b h) (hnew : ∀ c ∈ t.subtree h b, c ∉ S) :
    (asView t.idoms t.kids).Visits S [b] (t.subtree h b) := by
  induction h generalizing b S with
  | zero =>
      have hkids : (asView t.idoms t.kids).Visits (insert b S) (t.kidsOf b) [] := by
        rw [ht.kidsOf_eq_nil hb]
        exact .done _
      rw [subtree]
      simpa using View.Visits.enter (hnew b List.mem_cons_self) hkids (.done _)
  | succ h ih =>
      obtain ⟨hbS, hnew⟩ := List.forall_mem_cons.mp hnew
      have hkids : (asView t.idoms t.kids).Visits (insert b S) (t.kidsOf b)
          ((t.kidsOf b).flatMap (t.subtree h)) := by
        refine .flatMap (fun k hk S hS => ih (ht.kids_heightLe hb hk) hS) ?_ ?_
        · refine (ht.kids_sorted b).imp_of_mem fun {x y} hx hy hxy => ?_
          exact ht.disjoint_subtree hxy.ne ((ht.depth_kid hx).trans (ht.depth_kid hy).symm)
        · intro k hk c hkc
          have hdown := ht.rank k b ((ht.mem_kids b k).mp hk)
          rintro (rfl | hcS)
          · exact Nat.not_lt.mpr ((ht.above_of_mem_subtree hkc).rank_le ht.rank) hdown
          · exact hnew c (List.mem_flatMap.mpr ⟨k, hk, hkc⟩) hcS
      rw [subtree]
      simpa using View.Visits.enter hbS hkids (.done _)

theorem subtree_eq (hh : t.HeightLe b h) (hk : t.HeightLe b k) : t.subtree h b = t.subtree k b :=
  (ht.visits_subtree (S := ∅) hh fun _ _ => Set.notMem_empty _).unique
    (ht.visits_subtree hk fun _ _ => Set.notMem_empty _)

theorem preorder_eq (hh : t.HeightLe t.root h) : t.preorder.toList = t.subtree h t.root :=
  ht.visits.unique (ht.visits_subtree hh fun _ _ => Set.notMem_empty _)

theorem subtree_infix (hab : Above t.idom? a b) (hh : t.HeightLe a h) (hk : t.HeightLe b k) :
    t.subtree k b <:+: t.subtree h a := by
  induction hab generalizing h with
  | refl => exact ht.subtree_eq hk hh ▸ List.infix_rfl
  | @tail x a _ hxa ih =>
      have hmem := (ht.mem_kids a x).mpr hxa
      cases h with
      | zero => simp [ht.kidsOf_eq_nil hh] at hmem
      | succ h =>
          have hinfix := (ih (ht.kids_heightLe hh hmem)).trans
            (List.infix_flatMap_of_mem hmem (t.subtree h))
          exact hinfix.trans (List.suffix_cons a _).isInfix

end Downward

theorem exists_dominators (hb : t.contains b = true) :
    ∃ ds n, t.dominators b = .ok ds ∧ t.depth b = .ok n ∧ ds.head? = some b ∧
      ds.IsChain (fun x y => t.idom x = .ok (some y)) ∧ ds.getLast? = some t.root ∧
      ds.length = n + 1 ∧ t.strictDominators b = .ok ds.tail := by
  refine ⟨t.chain b, t.depthOf b, ?_, ?_, ht.head?_chain b, ht.isChain_chain hb,
    ht.getLast?_chain hb, ht.length_chain hb, ?_⟩
  · rw [dominators, require_eq_ok_iff.mpr hb]
    rfl
  · rw [depth, require_eq_ok_iff.mpr hb]
    rfl
  · rw [strictDominators, require_eq_ok_iff.mpr hb, ← List.drop_one]
    rfl

theorem strictlyDominates_iff_mem {ds : List BlockId} (ha : t.contains a = true)
    (hds : t.dominators b = .ok ds) :
    ∃ q, t.strictlyDominates a b = .ok q ∧ (q = true ↔ a ≠ b ∧ a ∈ ds) := by
  obtain ⟨_, hb, hds⟩ := bind_eq_ok_iff.mp hds
  cases hds
  have hb := require_eq_ok_iff.mp hb
  refine ⟨t.above a b, ?_, ?_⟩
  · rw [strictlyDominates, require_eq_ok_iff.mpr ha, require_eq_ok_iff.mpr hb]
    rfl
  · rw [ht.above_iff a b ha hb, ht.mem_chain hb]

theorem exists_children (ha : t.contains a = true) :
    ∃ cs, t.children a = .ok cs ∧ cs.Pairwise (· < ·) ∧
      ∀ b, b ∈ cs ↔ t.idom b = .ok (some a) := by
  refine ⟨t.kidsOf a, ?_, ht.kids_sorted a, fun b => ?_⟩
  · rw [children, require_eq_ok_iff.mpr ha]
    rfl
  · rw [ht.mem_kids, ht.idom_eq_ok_iff]

theorem dominates_iff_above (ha : t.contains a = true) :
    t.dominates a b = .ok true ↔ Above t.idom? a b := by
  rw [dominates]
  by_cases hab : a = b
  · rw [if_pos hab, require_eq_ok_iff.mpr ha]
    exact iff_of_true rfl (hab ▸ .refl a)
  · rw [if_neg hab, strictlyDominates, require_eq_ok_iff.mpr ha]
    change (do t.require b; return t.above a b) = Except.ok true ↔ _
    constructor
    · intro hq
      obtain ⟨_, hb, hq⟩ := bind_eq_ok_iff.mp hq
      have habove := (ht.above_iff a b ha (require_eq_ok_iff.mp hb)).mp (Except.ok.inj hq)
      exact habove.2
    · intro habove
      have hb := ht.contains_of_above ha habove
      rw [require_eq_ok_iff.mpr hb]
      exact congrArg Except.ok ((ht.above_iff a b ha hb).mpr ⟨hab, habove⟩)

theorem exists_dominated (ha : t.contains a = true) :
    ∃ bs, t.dominated a = .ok bs ∧ bs.head? = some a ∧ bs <:+: t.preorder.toList ∧
      (∀ b, b ∈ bs ↔ t.dominates a b = .ok true) ∧ t.strictlyDominated a = .ok bs.tail := by
  have hheight := ht.heightLe_size ha
  have hroot := ht.heightLe_size ((ht.contains_iff t.root).mpr (.inl rfl))
  refine ⟨t.subtree t.size a, ?_, ?_, ?_, fun b => ?_, ?_⟩
  · rw [dominated, require_eq_ok_iff.mpr ha]
    rfl
  · cases t.size <;> rfl
  · rw [ht.preorder_eq hroot]
    exact ht.subtree_infix (ht.above_root ha) hroot hheight
  · rw [ht.mem_subtree hheight, ht.dominates_iff_above ha]
  · rw [strictlyDominated, require_eq_ok_iff.mpr ha, ← List.drop_one]
    rfl

end Threaded

structure Coherent (t : DomTree) : Prop where
  dominators : ∀ b, t.contains b = true →
    ∃ ds n, t.dominators b = .ok ds ∧ t.depth b = .ok n ∧ ds.head? = some b ∧
      ds.IsChain (fun x y => t.idom x = .ok (some y)) ∧ ds.getLast? = some t.root ∧
      ds.length = n + 1 ∧ t.strictDominators b = .ok ds.tail
  strictlyDominates : ∀ a b ds, t.contains a = true → t.dominators b = .ok ds →
    ∃ q, t.strictlyDominates a b = .ok q ∧ (q = true ↔ a ≠ b ∧ a ∈ ds)
  children : ∀ a, t.contains a = true →
    ∃ cs, t.children a = .ok cs ∧ cs.Pairwise (· < ·) ∧ ∀ b, b ∈ cs ↔ t.idom b = .ok (some a)
  preorder_nodup : t.preorder.toList.Nodup
  mem_preorder : ∀ b, b ∈ t.preorder ↔ t.contains b = true
  position : ∀ b i, t.preorder[i]? = some b ↔ ∃ j, t.span? b = some (i, j)
  dominated : ∀ a, t.contains a = true →
    ∃ bs, t.dominated a = .ok bs ∧ bs.head? = some a ∧ bs <:+: t.preorder.toList ∧
      (∀ b, b ∈ bs ↔ t.dominates a b = .ok true) ∧ t.strictlyDominated a = .ok bs.tail

theorem Returned.coherent (h : t.Returned) : t.Coherent where
  dominators _ hb := h.threaded.exists_dominators hb
  strictlyDominates _ _ _ ha hds := h.threaded.strictlyDominates_iff_mem ha hds
  children _ ha := h.threaded.exists_children ha
  preorder_nodup := h.threaded.preorder_nodup
  mem_preorder _ := h.threaded.mem_preorder
  position := h.threaded.position
  dominated _ ha := h.threaded.exists_dominated ha

theorem Returned.coherent_tangle :
    ∃ t, tangle.dominators = .ok t ∧ t.Returned ∧ (∀ b ∈ [0, 1, 2, 3], t.contains b = true) ∧
      t.Coherent := by
  obtain ⟨t, ht, hreturned, hcontains⟩ := exists_returned_tangle
  exact ⟨t, ht, hreturned, hcontains, hreturned.coherent⟩

end ControlFlow.DomTree

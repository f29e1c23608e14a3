import ControlFlow.Proofs.DomTree.Queries

namespace ControlFlow.DomTree

variable {t : DomTree} {a b c c' d : BlockId}

def encloses (t : DomTree) (b c : BlockId) : Bool :=
  c == b || t.above c b

theorem dominates_eq (ha : t.contains a = true) (hb : t.contains b = true) :
    t.dominates a b = .ok (t.encloses b a) := by
  obtain ⟨q, hq, hiff⟩ := exists_dominates ha hb
  rw [hq, Bool.eq_iff_iff.mpr (hiff.trans ?_)]
  rw [encloses, Bool.or_eq_true, beq_iff_eq]

theorem contains_of_dominates {q : Bool} (h : t.dominates a b = .ok q) : t.contains a = true := by
  rw [dominates] at h
  split at h
  · obtain ⟨_, ha, -⟩ := bind_eq_ok_iff.mp h
    exact require_eq_ok_iff.mp ha
  · obtain ⟨_, ha, -⟩ := bind_eq_ok_iff.mp h
    exact require_eq_ok_iff.mp ha

namespace Threaded

variable (ht : Threaded t)

include ht

theorem encloses_iff (hc : t.contains c = true) (hb : t.contains b = true) :
    t.encloses b c = true ↔ Above t.idom? c b := by
  rw [encloses, Bool.or_eq_true, beq_iff_eq, ht.above_iff c b hc hb]
  constructor
  · rintro (rfl | ⟨-, habove⟩)
    · exact .refl c
    · exact habove
  · intro habove
    exact (eq_or_ne c b).imp_right fun hne => ⟨hne, habove⟩

theorem eq_of_above_iff (h : ∀ d, Above t.idom? d c ↔ Above t.idom? d c') : c = c' := by
  have hc : Above t.idom? c c' := (h c).mp (.refl c)
  have hc' : Above t.idom? c' c := (h c').mpr (.refl c')
  exact ht.eq_of_above hc (.refl c') (le_antisymm (hc.rank_le ht.rank) (hc'.rank_le ht.rank))

theorem contains_up (hb : t.contains b = true) : Above t.idom? a b → t.contains a = true := by
  refine ht.rec_root (fun habove => ?_) (fun x p hp ih habove => ?_) hb
  · rw [(Above.iff_of_top ht.idom_root).mp habove]
    exact (ht.contains_iff t.root).mpr (.inl rfl)
  · rcases (Above.iff_of_up hp).mp habove with rfl | habove
    · exact (ht.contains_iff _).mpr (.inr ⟨p, hp⟩)
    · exact ih habove

theorem contains_of_mem_chain (hb : t.contains b = true) (ha : a ∈ t.chain b) :
    t.contains a = true :=
  ht.contains_up hb ((ht.mem_chain hb).mp ha)

theorem dominates_eq_true_iff (hb : t.contains b = true) :
    t.dominates a b = .ok true ↔ Above t.idom? a b := by
  by_cases ha : t.contains a = true
  · rw [dominates_eq ha hb, Except.ok.injEq, ht.encloses_iff ha hb]
  · refine iff_of_false (fun hq => ha ?_) fun habove => ha (ht.contains_up hb habove)
    exact contains_of_dominates hq

theorem exists_nearest (ha : t.contains a = true) (hb : t.contains b = true) :
    ∃ c, (t.chain a).find? (t.encloses b) = some c ∧
      ∀ d, Above t.idom? d c ↔ Above t.idom? d a ∧ Above t.idom? d b := by
  refine ht.rec_root ?_ (fun x p hp ih => ?_) ha
  · have hroot := ht.above_root hb
    have hencloses := (ht.encloses_iff ((ht.contains_iff t.root).mpr (.inl rfl)) hb).mpr hroot
    refine ⟨t.root, ?_, fun d => ⟨fun hd => ⟨hd, hd.trans hroot⟩, And.left⟩⟩
    rw [chain_top ht.idom_root, List.find?_cons_of_pos hencloses]
  · have hx : t.contains x = true := (ht.contains_iff x).mpr (.inr ⟨p, hp⟩)
    rw [ht.chain_eq hp]
    by_cases hxb : Above t.idom? x b
    · have hencloses := (ht.encloses_iff hx hb).mpr hxb
      exact ⟨x, List.find?_cons_of_pos hencloses, fun d => ⟨fun hd => ⟨hd, hd.trans hxb⟩, And.left⟩⟩
    · obtain ⟨c, hc, hnearest⟩ := ih
      refine ⟨c, ?_, fun d => ?_⟩
      · rw [List.find?_cons_of_neg fun hq => hxb ((ht.encloses_iff hx hb).mp hq), hc]
      · rw [hnearest, Above.iff_of_up hp]
        constructor
        · exact fun ⟨hd, hdb⟩ => ⟨.inr hd, hdb⟩
        · rintro ⟨rfl | hd, hdb⟩
          · exact absurd hdb hxb
          · exact ⟨hd, hdb⟩

theorem exists_commonDominator (ha : t.contains a = true) (hb : t.contains b = true) :
    ∃ c passed rest, t.commonDominator a b = .ok c ∧
      (∀ d, Above t.idom? d c ↔ Above t.idom? d a ∧ Above t.idom? d b) ∧
      t.dominators a = .ok (passed ++ c :: rest) ∧ ∀ d ∈ passed, t.dominates d b = .ok false := by
  obtain ⟨c, hc, hnearest⟩ := ht.exists_nearest ha hb
  obtain ⟨-, passed, rest, hchain, hpassed⟩ := List.find?_eq_some_iff_append.mp hc
  refine ⟨c, passed, rest, ?_, hnearest, ?_, fun d hd => ?_⟩
  · rw [commonDominator, require_eq_ok_iff.mpr hb, require_eq_ok_iff.mpr ha]
    exact congrArg (fun found => Except.ok (Option.getD found t.root)) hc
  · rw [dominators, require_eq_ok_iff.mpr ha, ← hchain]
    rfl
  · have hmem : d ∈ t.chain a := hchain ▸ List.mem_append_left _ hd
    rw [dominates_eq (ht.contains_of_mem_chain ha hmem) hb, (Bool.not_eq_true' _).mp (hpassed d hd)]

end Threaded

theorem Returned.commonDominator_nearest (h : t.Returned) (ha : t.contains a = true)
    (hb : t.contains b = true) :
    ∃ c passed rest, t.commonDominator a b = .ok c ∧
      t.dominates c a = .ok true ∧ t.dominates c b = .ok true ∧
      (∀ d, t.dominates d a = .ok true → t.dominates d b = .ok true →
        t.dominates d c = .ok true) ∧
      t.commonDominator b a = .ok c ∧ (c = a ↔ t.dominates a b = .ok true) ∧
      t.dominators a = .ok (passed ++ c :: rest) ∧ ∀ d ∈ passed, t.dominates d b = .ok false := by
  have ht := h.threaded
  obtain ⟨c, passed, rest, hc, hnearest, hchain, hpassed⟩ := ht.exists_commonDominator ha hb
  obtain ⟨c', _, _, hc', hnearest', -⟩ := ht.exists_commonDominator hb ha
  obtain ⟨hca, hcb⟩ := (hnearest c).mp (.refl c)
  have hcin := ht.contains_up ha hca
  refine ⟨c, passed, rest, hc, (ht.dominates_eq_true_iff ha).mpr hca,
    (ht.dominates_eq_true_iff hb).mpr hcb, fun d hda hdb => ?_, ?_, ?_, hchain, hpassed⟩
  · rw [ht.dominates_eq_true_iff ha] at hda
    rw [ht.dominates_eq_true_iff hb] at hdb
    exact (ht.dominates_eq_true_iff hcin).mpr ((hnearest d).mpr ⟨hda, hdb⟩)
  · rw [hc', ht.eq_of_above_iff fun d => (hnearest' d).trans (and_comm.trans (hnearest d).symm)]
  · rw [ht.dominates_eq_true_iff hb]
    constructor
    · exact fun e => e ▸ hcb
    · intro hab
      exact ht.eq_of_above_iff fun d => (hnearest d).trans
        ⟨And.left, fun hd => ⟨hd, hd.trans hab⟩⟩

theorem Returned.commonDominator_nearest_tangle :
    ∃ t, tangle.dominators = .ok t ∧ t.Returned ∧ t.contains 3 = true ∧ t.contains 2 = true ∧
      ∃ c, t.commonDominator 3 2 = .ok c ∧ t.dominates c 3 = .ok true ∧
        t.dominates c 2 = .ok true ∧
        (∀ d, t.dominates d 3 = .ok true → t.dominates d 2 = .ok true →
          t.dominates d c = .ok true) ∧
        t.commonDominator 2 3 = .ok c ∧ (c = 3 ↔ t.dominates 3 2 = .ok true) := by
  obtain ⟨t, ht, hreturned, hcontains⟩ := exists_returned_tangle
  have hthree : t.contains 3 = true := hcontains 3 (by decide)
  have htwo : t.contains 2 = true := hcontains 2 (by decide)
  obtain ⟨c, _, _, hc, hca, hcb, hbelow, hswap, hiff, -⟩ :=
    hreturned.commonDominator_nearest hthree htwo
  exact ⟨t, ht, hreturned, hthree, htwo, c, hc, hca, hcb, hbelow, hswap, hiff⟩

end ControlFlow.DomTree

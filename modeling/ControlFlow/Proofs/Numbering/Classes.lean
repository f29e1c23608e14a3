import ControlFlow.Proofs.Dominators

namespace ControlFlow

namespace Numbering

variable {g : View} {root b c u v : BlockId} {vs : List BlockId} {stack : List Frame}
  {N N' : Numbering} {e : Crossing} {i j k l : Nat}

def treeEdges (N : Numbering) (v : BlockId) : List Crossing :=
  N.crossings.toList.filter fun e => e.kind = .tree ∧ e.target = v

theorem treeEdges_cross (N : Numbering) (u v w : BlockId) (kind : EdgeClass) :
    (N.cross u v kind).treeEdges w =
      if kind = .tree ∧ v = w then N.treeEdges w ++ [⟨u, v, kind⟩] else N.treeEdges w := by
  rw [treeEdges, cross, Array.toList_push, List.filter_append]
  split <;> simp_all [treeEdges]

def Precedes (N : Numbering) (u v : BlockId) : Prop :=
  ∃ i j l, N.pre? u = some i ∧ N.pre? v = some j ∧ i < j ∧ N.post? u = some l ∧
    ∀ k, N.post? v = some k → l < k

def Places (N : Numbering) (e : Crossing) : Prop :=
  match e.kind with
  | .tree => N.parent? e.target = some e.source
  | .back => Above N.parent? e.target e.source
  | .forward => Above N.parent? e.source e.target ∧ e.source ≠ e.target
  | .cross => N.Precedes e.target e.source

structure Later (N N' : Numbering) : Prop where
  pre : ∀ b i, N.pre? b = some i → N'.pre? b = some i
  parent : ∀ b p, N.parent? b = some p → N'.parent? b = some p
  post : ∀ b k, N.post? b = some k → N'.post? b = some k
  left : ∀ b k, N'.post? b = some k → N.post? b = some k ∨ N.postorder.size ≤ k

theorem Places.later (hpost : Inverse N.post? N.postorder) (h : N.Later N') (he : N.Places e) :
    N'.Places e := by
  rcases e with ⟨u, v, _ | _ | _ | _⟩
  · exact h.parent v u he
  · exact Above.mono h.parent he
  · exact ⟨he.1.mono h.parent, he.2⟩
  · obtain ⟨i, j, l, hi, hj, hij, hl, hlt⟩ := he
    refine ⟨i, j, l, h.pre v i hi, h.pre u j hj, hij, h.post v l hl, fun k hk => ?_⟩
    rcases h.left u k hk with hk | hle
    · exact hlt k hk
    · exact Nat.lt_of_lt_of_le (hpost.lt_size hl) hle

structure Classed (N : Numbering) : Prop where
  places : ∀ e ∈ N.crossings, N.Places e
  tree : ∀ v, N.treeEdges v = (N.parent? v).toList.map (⟨·, v, .tree⟩)

namespace Running

theorem later_leave (h : Running g root (⟨u, []⟩ :: stack) N) : N.Later (N.leave u) where
  pre _ _ hi := hi
  parent _ _ hp := hp
  post _ _ := h.post?_leave_of
  left b k hk := by
    rw [h.post?_top] at hk
    split at hk
    · exact .inr (Option.some.inj hk).le
    · exact .inl hk

theorem later_discover (h : Running g root (⟨u, v :: vs⟩ :: stack) N)
    (hv : N.pres[v]? = some none) (kind : EdgeClass) : N.Later (N.discover u v kind) where
  pre _ _ := pre?_discover_of hv
  parent _ _ := h.parent?_discover_of hv
  post _ _ hk := hk
  left _ _ hk := .inl hk

theorem classify_new (hv : N.pres[v]? = some none) : N.classify u v = .tree := by
  rw [classify, pre?_new hv]

theorem places_classify (h : Running g root (⟨u, v :: vs⟩ :: stack) N) (hv : N.pre? v = some j) :
    N.Places ⟨u, v, N.classify u v⟩ ∧ N.classify u v ≠ .tree := by
  obtain ⟨⟨i, hi⟩, hopen⟩ := h.top
  rw [classify, hv, hi]
  dsimp only [Option.any_some]
  cases hl : N.post? v with
  | none =>
      refine ⟨?_, nofun⟩
      rcases List.mem_cons.mp ((h.open_iff v).mpr ⟨⟨j, hv⟩, hl⟩) with rfl | hmem
      · exact .refl v
      · exact (h.above_top hmem).1
  | some l =>
      have hne : u ≠ v := by
        rintro rfl
        simp [hopen] at hl
      by_cases hij : i < j
      · simp only [hij, decide_true, if_true]
        exact ⟨⟨h.nested u v i j hi hv hij.le (.inl hopen), hne⟩, nofun⟩
      · simp only [hij, decide_false]
        have hji : j ≠ i := fun e => hne (h.pre.inj hi (e ▸ hv))
        refine ⟨⟨j, i, l, hv, hi, by omega, hl, fun k hk => ?_⟩, nofun⟩
        simp [hopen] at hk

end Running

namespace Classed

theorem leave (hc : N.Classed) (h : Running g root (⟨u, []⟩ :: stack) N) :
    (N.leave u).Classed where
  places e he := (hc.places e he).later h.post h.later_leave
  tree := hc.tree

theorem skip (hc : N.Classed) (h : Running g root (⟨u, v :: vs⟩ :: stack) N)
    (hv : N.pre? v = some j) : (N.cross u v (N.classify u v)).Classed := by
  obtain ⟨hplaces, hkind⟩ := h.places_classify hv
  refine ⟨fun e he => ?_, fun w => ?_⟩
  · rcases Array.mem_push.mp he with he | rfl
    · exact hc.places e he
    · exact hplaces
  · rw [treeEdges_cross, if_neg fun htree => hkind htree.1]
    exact hc.tree w

theorem descend (hc : N.Classed) (h : Running g root (⟨u, v :: vs⟩ :: stack) N)
    (hv : N.pres[v]? = some none) : (N.discover u v (N.classify u v)).Classed := by
  rw [Running.classify_new hv]
  have hparent : ∀ c, (N.discover u v .tree).parent? c = if v = c then some u else N.parent? c :=
    h.parent?_discover hv
  refine ⟨fun e he => ?_, fun w => ?_⟩
  · rcases Array.mem_push.mp he with he | rfl
    · exact (hc.places e he).later h.post (h.later_discover hv .tree)
    · exact (hparent v).trans (if_pos rfl)
  · change (N.cross u v .tree).treeEdges w = _
    rw [treeEdges_cross, hparent, hc.tree]
    by_cases hvw : v = w
    · subst hvw
      have hnone : N.parent? v = none := by
        refine Option.eq_none_iff_forall_ne_some.mpr fun p hp => ?_
        obtain ⟨i, j, -, hj, -⟩ := h.parent_pre v p hp
        simp [Running.pre?_new hv] at hj
      simp [hnone]
    · simp [hvw]

theorem begin (hroot : root < g.bound) : ((blank root g.bound).enter root none).Classed where
  places e he := by simp [enter, blank] at he
  tree v := by
    rw [parent?_begin hroot]
    simp [treeEdges, enter, blank]

end Classed

theorem Running.classed (h : Running g root stack N) (hc : N.Classed)
    (hrun : Numbering.run g stack N = .ok N') : N'.Classed := by
  fun_induction Numbering.run g stack N with
  | case1 N =>
      cases hrun
      exact hc
  | case2 u stack N ih => exact ih h.leave (hc.leave h) hrun
  | case3 u v vs stack N hv => cases hrun
  | case4 u v vs stack N hv ih => exact ih (h.descend hv _) (hc.descend h hv) hrun
  | case5 u v vs stack N j hv ih =>
      have hj : N.pre? v = some j := by
        rw [pre?, hv]
        rfl
      exact ih (h.skip _ hj) (hc.skip h hj) hrun

theorem number_classed {N : Numbering} (hroot : root < g.bound) (hnum : g.number root = .ok N) :
    N.Classed := by
  rw [View.number, if_pos hroot] at hnum
  exact (running_start hroot).classed (.begin hroot) hnum

section Finished

variable (h : N.Finished g root)

include h

theorem Running.above_antisymm (huv : Above N.parent? u v) (hvu : Above N.parent? v u) : u = v := by
  by_contra hne
  exact absurd (huv.rank_lt h.rank hne) (Nat.not_lt.mpr (hvu.rank_le h.rank))

theorem Precedes.not_above (hp : N.Precedes u v) :
    ¬Above N.parent? u v ∧ ¬Above N.parent? v u := by
  obtain ⟨i, j, l, hi, hj, hij, hl, hlt⟩ := hp
  obtain ⟨k, hk⟩ := h.exists_post hj
  have hlk := hlt k hk
  rw [h.above_iff hi hj hl hk, h.above_iff hj hi hk hl]
  omega

theorem Places.below (he : N.Places e) (hkind : e.kind = .tree ∨ e.kind = .forward) :
    Above N.parent? e.source e.target ∧ e.source ≠ e.target := by
  rcases e with ⟨u, v, _ | _ | _ | _⟩
  · have hp : N.parent? v = some u := he
    refine ⟨.of_up hp (.refl u), fun hloop : u = v => ?_⟩
    subst hloop
    exact Nat.lt_irrefl _ (h.rank _ _ hp)
  · simp at hkind
  · exact he
  · simp at hkind

theorem Places.kind_iff (he : N.Places e) :
    (e.kind = .back ↔ Above N.parent? e.target e.source) ∧
      (e.kind = .forward ↔
        e.kind ≠ .tree ∧ Above N.parent? e.source e.target ∧ e.source ≠ e.target) ∧
      (e.kind = .cross ↔
        ¬Above N.parent? e.target e.source ∧ ¬Above N.parent? e.source e.target) := by
  have hbelow := he.below h
  have hanti := h.above_antisymm (u := e.source) (v := e.target)
  rcases e with ⟨u, v, _ | _ | _ | _⟩
  · obtain ⟨huv, hne⟩ := hbelow (.inl rfl)
    have hvu : ¬Above N.parent? v u := fun hvu => hne (hanti huv hvu)
    simp [huv, hvu]
  · have hvu : Above N.parent? v u := he
    have hloop : Above N.parent? u v → u = v := fun huv => hanti huv hvu
    simpa [hvu] using hloop
  · obtain ⟨huv, hne⟩ := hbelow (.inr rfl)
    have hvu : ¬Above N.parent? v u := fun hvu => hne (hanti huv hvu)
    simp [huv, hvu, hne]
  · obtain ⟨hvu, huv⟩ := Precedes.not_above h he
    simp [huv, hvu]

end Finished

end Numbering

theorem View.classes_correct {g : View} {root : BlockId} (hroot : root < g.bound)
    (hrange : g.InRange root) :
    ∃ N, g.number root = .ok N ∧
      (∀ u, g.Reaches root u → N.crossed u = g.succs u) ∧
      (∀ e ∈ N.crossings, g.Reaches root e.source ∧ g.Reaches root e.target) ∧
      (∀ u v, g.Reaches root u → g.Reaches root v →
        ∃ i j k l, N.pre? u = some i ∧ N.pre? v = some j ∧ N.post? u = some k ∧
          N.post? v = some l ∧ (Above N.parent? u v ↔ i ≤ j ∧ l ≤ k)) ∧
      N.treeEdges root = [] ∧
      (∀ v, g.Reaches root v → v ≠ root →
        ∃ p, N.parent? v = some p ∧ N.treeEdges v = [⟨p, v, .tree⟩]) ∧
      ∀ e ∈ N.crossings,
        (e.kind = .back ↔ Above N.parent? e.target e.source) ∧
        (e.kind = .forward ↔
          e.kind ≠ .tree ∧ Above N.parent? e.source e.target ∧ e.source ≠ e.target) ∧
        (e.kind = .cross ↔
          ¬Above N.parent? e.target e.source ∧ ¬Above N.parent? e.source e.target) ∧
        (e.kind = .cross → ∃ i j k l, N.pre? e.target = some i ∧ N.pre? e.source = some j ∧ i < j ∧
          N.post? e.target = some k ∧ N.post? e.source = some l ∧ k < l) := by
  obtain ⟨N, hnum, hN⟩ := number_finished hroot hrange
  have hclassed := Numbering.number_classed hroot hnum
  have hnumbered : ∀ b, g.Reaches root b → ∃ i k, N.pre? b = some i ∧ N.post? b = some k := by
    intro b hb
    rw [← hN.contains_iff, Numbering.contains_iff] at hb
    obtain ⟨i, hi⟩ := hb
    obtain ⟨k, hk⟩ := hN.exists_post hi
    exact ⟨i, k, hi, hk⟩
  refine ⟨N, hnum, fun u => hN.crossed_eq, fun e he => ?_, fun u v hu hv => ?_, ?_,
    fun v hv hne => ?_, fun e he => ?_⟩
  · obtain ⟨hsource, hstep⟩ := hN.step_of_mem he
    exact ⟨hsource, hsource.tail hstep⟩
  · obtain ⟨i, k, hi, hk⟩ := hnumbered u hu
    obtain ⟨j, l, hj, hl⟩ := hnumbered v hv
    exact ⟨i, j, k, l, hi, hj, hk, hl, hN.above_iff hi hj hk hl⟩
  · rw [hclassed.tree, hN.parent_root]
    rfl
  · obtain ⟨i, -, hi, -⟩ := hnumbered v hv
    obtain ⟨p, hp⟩ := hN.has_parent v i hi hne
    refine ⟨p, hp, ?_⟩
    rw [hclassed.tree, hp]
    rfl
  · have hplaces := hclassed.places e he
    obtain ⟨hback, hforward, hcross⟩ := hplaces.kind_iff hN
    refine ⟨hback, hforward, hcross, fun hkind => ?_⟩
    rw [Numbering.Places, hkind] at hplaces
    obtain ⟨i, j, k, hi, hj, hij, hk, hlt⟩ := hplaces
    obtain ⟨l, hl⟩ := hN.exists_post hj
    exact ⟨i, j, k, l, hi, hj, hij, hk, hl, hlt l hl⟩

theorem View.classes_correct_tangle :
    tangle.root < tangle.bound ∧ tangle.InRange tangle.root ∧
    ∃ N, tangle.toView.number tangle.root = .ok N ∧
      (∀ u, tangle.Reaches tangle.root u → N.crossed u = tangle.succs u) ∧
      (∀ e ∈ N.crossings,
        tangle.Reaches tangle.root e.source ∧ tangle.Reaches tangle.root e.target) ∧
      (∀ u v, tangle.Reaches tangle.root u → tangle.Reaches tangle.root v →
        ∃ i j k l, N.pre? u = some i ∧ N.pre? v = some j ∧ N.post? u = some k ∧
          N.post? v = some l ∧ (Above N.parent? u v ↔ i ≤ j ∧ l ≤ k)) ∧
      N.treeEdges tangle.root = [] ∧
      (∀ v, tangle.Reaches tangle.root v → v ≠ tangle.root →
        ∃ p, N.parent? v = some p ∧ N.treeEdges v = [⟨p, v, .tree⟩]) ∧
      ∀ e ∈ N.crossings,
        (e.kind = .back ↔ Above N.parent? e.target e.source) ∧
        (e.kind = .forward ↔
          e.kind ≠ .tree ∧ Above N.parent? e.source e.target ∧ e.source ≠ e.target) ∧
        (e.kind = .cross ↔
          ¬Above N.parent? e.target e.source ∧ ¬Above N.parent? e.source e.target) ∧
        (e.kind = .cross → ∃ i j k l, N.pre? e.target = some i ∧ N.pre? e.source = some j ∧ i < j ∧
          N.post? e.target = some k ∧ N.post? e.source = some l ∧ k < l) := by
  have hsound : tangle.toView.Sound tangle.root :=
    View.sound_ofEdges (by decide) (by decide)
  exact ⟨hsound.root_lt, hsound.inRange, View.classes_correct hsound.root_lt hsound.inRange⟩

end ControlFlow

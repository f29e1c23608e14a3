import ControlFlow.Proofs.DomTree.OfIdoms

namespace ControlFlow.DomTree

open Relation

variable {g : View} {root a b c p q r s : BlockId} {idoms semis : Array (Option BlockId)}
  {t u : DomTree} {N : Numbering} {stop : Option BlockId} {F F' : Array (List BlockId)}

structure Levelled (t : DomTree) : Prop where
  depth : ∀ b p, t.idom? b = some p → t.depthOf b = t.depthOf p + 1
  lt_bound : ∀ b, t.contains b = true → b < t.bound

theorem Levelled.rank (h : Levelled t) (x y : BlockId) (hxy : t.idom? x = some y) :
    t.depthOf y < t.depthOf x := by
  rw [h.depth x y hxy]
  exact Nat.lt_succ_self _

section Depth

def setDepth (idoms : Array (Option BlockId)) (T : Array Nat) (b : BlockId) : Array Nat :=
  match idoms[b]?.join with
  | some p => T.setIfInBounds b (T[p]?.getD 0 + 1)
  | none => T

theorem size_foldl_setDepth (l : List BlockId) (T : Array Nat) :
    (l.foldl (setDepth idoms) T).size = T.size := by
  induction l generalizing T with
  | nil => rfl
  | cons x l ih =>
      rw [List.foldl_cons, ih, setDepth]
      split
      · exact Array.size_setIfInBounds
      · rfl

theorem getElem?_foldl_setDepth (l : List BlockId) (T : Array Nat)
    (hc : c ∈ l → idoms[c]?.join = none) : (l.foldl (setDepth idoms) T)[c]? = T[c]? := by
  induction l generalizing T with
  | nil => rfl
  | cons x l ih =>
      rw [List.foldl_cons, ih _ fun h => hc (List.mem_cons_of_mem x h), setDepth]
      split
      · rename_i p hp
        refine Array.getElem?_setIfInBounds_ne ?_
        rintro rfl
        simp [hp] at hc
      · rfl

theorem depth_foldl (l₁ l₂ : List BlockId) (T : Array Nat) (hnodup : (l₁ ++ b :: l₂).Nodup)
    (hp : p ∈ l₁) (hb : b < T.size) (hidom : idoms[b]?.join = some p) :
    ((l₁ ++ b :: l₂).foldl (setDepth idoms) T)[b]?.getD 0 =
      ((l₁ ++ b :: l₂).foldl (setDepth idoms) T)[p]?.getD 0 + 1 := by
  obtain ⟨-, hcons, hdisjoint⟩ := List.nodup_append.mp hnodup
  -- the parent comes first and has its final depth when the child reads it
  have hp' : p ∉ b :: l₂ := fun hmem => hdisjoint p hp p hmem rfl
  have hb' : b ∉ l₂ := (List.nodup_cons.mp hcons).1
  rw [List.foldl_append, getElem?_foldl_setDepth _ _ fun h => absurd h hp', List.foldl_cons,
    getElem?_foldl_setDepth _ _ fun h => absurd h hb', setDepth, hidom]
  simp only
  rw [Array.getElem?_setIfInBounds_self_of_lt (by rwa [size_foldl_setDepth]), Option.getD_some]

theorem Buildable.levelled (h : Buildable root idoms N) :
    Levelled (ofNumbering g root idoms semis N) where
  depth b p hidom := by
    have hidom : idoms[b]?.join = some p := hidom
    have hblt : b < idoms.size := by
      rw [Option.join_eq_some_iff] at hidom
      exact (Array.getElem?_eq_some_iff.mp hidom).1
    have hN := h.finished
    obtain ⟨j, hj⟩ := h.exists_pre_iff.mpr (.inr ⟨p, hidom⟩)
    obtain ⟨i, j', hi, hj', hij⟩ := hN.parent_pre b p
      ((parent?_eq h.range hN h.root_free hj).trans hidom)
    cases hj.symm.trans hj'
    rw [hN.pre, ← Array.getElem?_toList, List.getElem?_eq_some_iff] at hi hj
    obtain ⟨hilt, hi⟩ := hi
    obtain ⟨hjlt, hj⟩ := hj
    have hsplit : N.preorder.toList =
        N.preorder.toList.take j ++ b :: N.preorder.toList.drop (j + 1) := by
      conv_lhs => rw [← List.take_append_drop j N.preorder.toList]
      rw [List.drop_eq_getElem_cons hjlt, hj]
    have hp : p ∈ N.preorder.toList.take j := by
      rw [List.mem_take_iff_getElem]
      exact ⟨i, by omega, hi⟩
    have hnodup := hN.preorder_nodup
    change (depthTable idoms N.preorder)[b]?.getD 0 = (depthTable idoms N.preorder)[p]?.getD 0 + 1
    rw [depthTable, ← Array.foldl_toList]
    rw [hsplit] at hnodup ⊢
    exact depth_foldl _ _ _ hnodup hp (by rwa [Array.size_replicate]) hidom
  lt_bound b hb := by
    have hN := h.finished
    rw [h.contains_iff, ← Numbering.contains_iff, hN.contains_iff] at hb
    rcases hb.cases_tail with rfl | ⟨p, hp, hpb⟩
    · exact h.root_lt
    · exact inRange_asView h.range root p hp b hpb

end Depth

section Marks

def entries (F : Array (List BlockId)) (a : BlockId) : List BlockId :=
  F[a]?.getD []

theorem entries_modify (hr : r < F.size) (a : BlockId) :
    entries (F.modify r (b :: ·)) a = if r = a then b :: entries F a else entries F a := by
  rw [entries, entries, Array.getElem?_modify]
  split
  · rename_i hra
    subst hra
    rw [Array.getElem?_eq_getElem hr]
    rfl
  · rfl

theorem entries_replicate (n : Nat) (a : BlockId) : entries (Array.replicate n []) a = [] := by
  rw [entries, Array.getElem?_replicate]
  split <;> rfl

structure Ascending (b : BlockId) (F : Array (List BlockId)) : Prop where
  sorted : ∀ a, (entries F a).Pairwise (· < ·)
  le : ∀ a, ∀ c ∈ entries F a, b ≤ c

theorem Ascending.marked_iff (h : Ascending b F) : marked F r b = true ↔ b ∈ entries F r := by
  have hsorted := h.sorted r
  have hle := h.le r
  rw [entries] at hsorted hle ⊢
  rw [marked]
  match F[r]?, hsorted, hle with
  | none, _, _ => simp
  | some [], _, _ => simp
  | some (c :: l), hsorted, hle =>
      rw [Option.getD_some] at hsorted hle ⊢
      simp only [beq_iff_eq, List.mem_cons]
      constructor
      · exact fun hcb => .inl hcb.symm
      · rintro (hbc | hbl)
        · exact hbc.symm
        · exact absurd (hle c List.mem_cons_self)
            (Nat.not_le.mpr ((List.pairwise_cons.mp hsorted).1 b hbl))

theorem Ascending.modify (h : Ascending b F) (hr : r < F.size) (hb : b ∉ entries F r) :
    Ascending b (F.modify r (b :: ·)) where
  sorted a := by
    rw [entries_modify hr]
    split
    · rename_i hra
      subst hra
      refine List.pairwise_cons.mpr ⟨fun c hc => ?_, h.sorted r⟩
      exact Nat.lt_of_le_of_ne (h.le r c hc) fun e => hb (e ▸ hc)
    · exact h.sorted a
  le a c hc := by
    rw [entries_modify hr] at hc
    split at hc
    · rcases List.mem_cons.mp hc with rfl | hc
      · exact Nat.le_refl _
      · exact h.le a c hc
    · exact h.le a c hc

def Within (t : DomTree) (stop : Option BlockId) (a r : BlockId) : Prop :=
  Above t.idom? a r ∧ ∀ s, stop = some s → ¬Above t.idom? a s

/-- `b` is noted wherever a climb from a noted block leads, except perhaps at `r`. -/
def Pending (t : DomTree) (b : BlockId) (stop : Option BlockId) (r : BlockId)
    (F : Array (List BlockId)) : Prop :=
  ∀ x q, b ∈ entries F x → t.idom? x = some q → stop = some q ∨ b ∈ entries F q ∨ q = r

def Closed (t : DomTree) (b : BlockId) (stop : Option BlockId) (F : Array (List BlockId)) : Prop :=
  ∀ x q, b ∈ entries F x → t.idom? x = some q → stop = some q ∨ b ∈ entries F q

theorem Closed.mem_of_within (h : Closed t b stop F) (hb : b ∈ entries F r)
    (hw : Within t stop a r) : b ∈ entries F a := by
  obtain ⟨habove, hstop⟩ := hw
  induction habove using ReflTransGen.head_induction_on with
  | refl => exact hb
  | @head x y hxy hya ih =>
      rcases h x y hb hxy with hs | hy
      · exact absurd hya (hstop y hs)
      · exact ih hy

structure Noted (t : DomTree) (b : BlockId) (stop : Option BlockId) (P : BlockId → Prop)
    (F F' : Array (List BlockId)) : Prop where
  size_eq : F'.size = F.size
  ascending : Ascending b F'
  closed : Closed t b stop F'
  mem_iff : ∀ a c, c ∈ entries F' a ↔ c ∈ entries F a ∨ c = b ∧ P a

variable (ht : Levelled t)

include ht

theorem Levelled.within_iff (hp : t.idom? r = some p) (hne : stop ≠ some r)
    (hstop : ∀ s, stop = some s → Above t.idom? s r) :
    Within t stop a r ↔ a = r ∨ Within t stop a p := by
  constructor
  · rintro ⟨habove, hs⟩
    by_cases har : a = r
    · exact .inl har
    · exact .inr ⟨habove.up_of_ne har hp, hs⟩
  · rintro (rfl | ⟨habove, hs⟩)
    · refine ⟨.refl a, fun s hs has => ?_⟩
      have hsa : s ≠ a := fun e => hne (e ▸ hs)
      exact absurd ((hstop s hs).rank_lt ht.rank hsa) (Nat.not_lt.mpr (has.rank_le ht.rank))
    · exact ⟨.of_up hp habove, hs⟩

omit ht in
theorem within_top_iff (hp : t.idom? r = none) (hne : stop ≠ some r)
    (hstop : ∀ s, stop = some s → Above t.idom? s r) : Within t stop a r ↔ a = r := by
  have htop : ∀ x, Above t.idom? x r → x = r := fun x => (Above.iff_of_top hp).mp
  constructor
  · exact fun h => htop a h.1
  · rintro rfl
    exact ⟨.refl a, fun s hs _ => hne (htop s (hstop s hs) ▸ hs)⟩

theorem Levelled.mark_eq (r : BlockId) (F : Array (List BlockId)) :
    t.mark b stop (t.depthOf r) r F =
      if stop == some r || marked F r b then F
      else
        match t.idom? r with
        | some p => t.mark b stop (t.depthOf p) p (F.modify r (b :: ·))
        | none => F.modify r (b :: ·) := by
  cases hr : t.idom? r with
  | none =>
      cases t.depthOf r with
      | zero => rw [mark]
      | succ d => rw [mark, hr]
  | some p => rw [ht.depth r p hr, mark, hr]

omit ht in
theorem noted_of_passed (hF : Ascending b F) (hpending : Pending t b stop r F)
    (h : stop = some r ∨ b ∈ entries F r) : Noted t b stop (Within t stop · r) F F := by
  have hclosed : Closed t b stop F := by
    intro x q hx hq
    rcases hpending x q hx hq with hs | hq | rfl
    · exact .inl hs
    · exact .inr hq
    · exact h
  -- an earlier climb passed `r` and went on, so nothing is left to note
  refine ⟨rfl, hF, hclosed, fun a c => ⟨.inl, ?_⟩⟩
  rintro (hc | ⟨rfl, hw⟩)
  · exact hc
  · rcases h with hs | hr
    · exact absurd hw.1 (hw.2 r hs)
    · exact hclosed.mem_of_within hr hw

omit ht in
theorem mem_entries_modify_iff (hr : r < F.size) :
    c ∈ entries (F.modify r (b :: ·)) a ↔ c ∈ entries F a ∨ c = b ∧ a = r := by
  rw [entries_modify hr]
  split
  · rename_i hra
    subst hra
    rw [List.mem_cons, or_comm]
    simp
  · rename_i hra
    simp [Ne.symm hra]

omit ht in
theorem Pending.modify (h : Pending t b stop r F) (hr : r < F.size) {x q : BlockId}
    (hx : b ∈ entries (F.modify r (b :: ·)) x) (hq : t.idom? x = some q) :
    x = r ∨ stop = some q ∨ b ∈ entries (F.modify r (b :: ·)) q := by
  simp only [mem_entries_modify_iff hr, true_and] at hx ⊢
  rcases hx with hx | hx
  · rcases h x q hx hq with hs | hq | hq
    · exact .inr (.inl hs)
    · exact .inr (.inr (.inl hq))
    · exact .inr (.inr (.inr hq))
  · exact .inl hx

theorem noted_mark (hgrown : Grown t) (hr : t.contains r = true)
    (hstop : ∀ s, stop = some s → Above t.idom? s r) (hsize : F.size = t.bound)
    (hF : Ascending b F) (hpending : Pending t b stop r F) :
    Noted t b stop (Within t stop · r) F (t.mark b stop (t.depthOf r) r F) := by
  induction hk : t.depthOf r using Nat.strongRecOn generalizing r F with
  | ind k ih =>
      subst hk
      rw [ht.mark_eq]
      by_cases hpassed : stop = some r ∨ b ∈ entries F r
      · rw [if_pos (by simpa [hF.marked_iff] using hpassed)]
        exact noted_of_passed hF hpending hpassed
      rw [if_neg (by simpa [hF.marked_iff] using hpassed)]
      rw [not_or] at hpassed
      obtain ⟨hne, hnot⟩ := hpassed
      have hlt : r < F.size := hsize ▸ ht.lt_bound r hr
      have hF' := hF.modify hlt hnot
      cases hup : t.idom? r with
      | none =>
          refine ⟨Array.size_modify, hF', ?_, fun a c => ?_⟩
          · intro x q hx hq
            rcases hpending.modify hlt hx hq with rfl | h
            · simp [hup] at hq
            · exact h
          · rw [mem_entries_modify_iff hlt, within_top_iff hup hne hstop]
      | some p =>
          have hstop' : ∀ s, stop = some s → Above t.idom? s p := by
            intro s hs
            have hsr : s ≠ r := fun e => hne (e ▸ hs)
            exact (hstop s hs).up_of_ne hsr hup
          have hpending' : Pending t b stop p (F.modify r (b :: ·)) := by
            intro x q hx hq
            rcases hpending.modify hlt hx hq with rfl | hs | hq
            · rw [hup] at hq
              exact .inr (.inr (Option.some.inj hq).symm)
            · exact .inl hs
            · exact .inr (.inl hq)
          have hrest := ih (t.depthOf p) (ht.rank r p hup) (hgrown.contains_idom r p hup) hstop'
            (by rw [Array.size_modify, hsize]) hF' hpending' rfl
          refine ⟨by rw [hrest.size_eq, Array.size_modify], hrest.ascending, hrest.closed,
            fun a c => ?_⟩
          rw [hrest.mem_iff, mem_entries_modify_iff hlt, ht.within_iff hup hne hstop, or_assoc,
            and_or_left]

theorem noted_foldl_mark (hgrown : Grown t) (rs : List BlockId)
    (hrs : ∀ r ∈ rs, t.contains r = true ∧ ∀ s, stop = some s → Above t.idom? s r)
    (hsize : F.size = t.bound) (hF : Ascending b F) (hclosed : Closed t b stop F) :
    Noted t b stop (fun a => ∃ r ∈ rs, Within t stop a r) F
      (rs.foldl (fun F r => t.mark b stop (t.depthOf r) r F) F) := by
  induction rs generalizing F with
  | nil => exact ⟨rfl, hF, hclosed, fun a c => by simp⟩
  | cons r rs ih =>
      obtain ⟨hr, hstop⟩ := hrs r List.mem_cons_self
      have hpending : Pending t b stop r F := by
        intro x q hx hq
        rcases hclosed x q hx hq with hs | hq
        · exact .inl hs
        · exact .inr (.inl hq)
      have hfirst := noted_mark ht hgrown hr hstop hsize hF hpending
      have hrest := ih (fun x hx => hrs x (List.mem_cons_of_mem _ hx))
        (hfirst.size_eq.trans hsize) hfirst.ascending hfirst.closed
      refine ⟨hrest.size_eq.trans hfirst.size_eq, hrest.ascending, hrest.closed, fun a c => ?_⟩
      rw [List.foldl_cons, hrest.mem_iff, hfirst.mem_iff, or_assoc, ← and_or_left]
      simp

def Climbable (t : DomTree) (g : View) : Prop :=
  ∀ b p s, t.contains b = true → p ∈ g.preds b → t.contains p = true → t.idom? b = some s →
    Above t.idom? s p

def Ends (t : DomTree) (g : View) (a b : BlockId) : Prop :=
  t.contains b = true ∧ (2 ≤ ((g.preds b).filter t.contains).length ∨ b = t.root) ∧
    ∃ p ∈ g.preds b, t.contains p = true ∧ Within t (t.idom? b) a p

theorem noted_markJoin (hgrown : Grown t) (hg : Climbable t g) (hsize : F.size = t.bound)
    (hF : Ascending (b + 1) F) :
    (t.markJoin g b F).size = F.size ∧ Ascending b (t.markJoin g b F) ∧
      ∀ a c, c ∈ entries (t.markJoin g b F) a ↔ c ∈ entries F a ∨ c = b ∧ Ends t g a b := by
  have hF' : Ascending b F := ⟨hF.sorted, fun a c hc => Nat.le_of_succ_le (hF.le a c hc)⟩
  have hmem : ∀ p, p ∈ (g.preds b).filter t.contains ↔ p ∈ g.preds b ∧ t.contains p = true :=
    fun p => List.mem_filter
  rw [markJoin]
  by_cases hjoin : t.contains b ∧ (2 ≤ ((g.preds b).filter t.contains).length ∨
      (b = t.root ∧ (g.preds b).filter t.contains ≠ []))
  · rw [if_pos hjoin]
    have hclosed : Closed t b (t.idom? b) F :=
      fun x _ hx _ => absurd (hF.le x b hx) (Nat.not_succ_le_self b)
    have hnoted := noted_foldl_mark ht hgrown ((g.preds b).filter t.contains)
      (fun p hp => ⟨((hmem p).mp hp).2,
        fun s hs => hg b p s hjoin.1 ((hmem p).mp hp).1 ((hmem p).mp hp).2 hs⟩)
      hsize hF' hclosed
    refine ⟨hnoted.size_eq, hnoted.ascending, fun a c => ?_⟩
    have hkind : 2 ≤ ((g.preds b).filter t.contains).length ∨ b = t.root :=
      hjoin.2.imp_right And.left
    rw [hnoted.mem_iff, Ends, and_iff_right hjoin.1, and_iff_right hkind]
    simp only [hmem, and_assoc]
  · rw [if_neg hjoin]
    refine ⟨rfl, hF', fun a c => ⟨.inl, ?_⟩⟩
    rintro (hc | ⟨-, hb, hkind, p, hp, hpt, -⟩)
    · exact hc
    · refine absurd ⟨hb, hkind.imp_right fun e => ⟨e, ?_⟩⟩ hjoin
      exact List.ne_nil_of_mem ((hmem p).mpr ⟨hp, hpt⟩)

theorem foldr_markJoin (hgrown : Grown t) (hg : Climbable t g) (l : List BlockId)
    (hl : l.Pairwise (· < ·)) :
    (l.foldr (t.markJoin g) (Array.replicate t.bound [])).size = t.bound ∧
      (∀ a, (entries (l.foldr (t.markJoin g) (Array.replicate t.bound [])) a).Pairwise
        (· < ·)) ∧
      ∀ a c, c ∈ entries (l.foldr (t.markJoin g) (Array.replicate t.bound [])) a ↔
        c ∈ l ∧ Ends t g a c := by
  induction l with
  | nil =>
      refine ⟨Array.size_replicate, fun a => ?_, fun a c => ?_⟩
      · rw [List.foldr_nil, entries_replicate]
        exact .nil
      · simp [entries_replicate]
  | cons b l ih =>
      obtain ⟨hb, hl⟩ := List.pairwise_cons.mp hl
      obtain ⟨hsize, hsorted, hmem⟩ := ih hl
      have hF : Ascending (b + 1) (l.foldr (t.markJoin g) (Array.replicate t.bound [])) :=
        ⟨hsorted, fun a c hc => hb c ((hmem a c).mp hc).1⟩
      obtain ⟨hsize', hF', hmem'⟩ := noted_markJoin ht hgrown hg hsize hF
      refine ⟨hsize'.trans hsize, hF'.sorted, fun a c => ?_⟩
      rw [List.foldr_cons, hmem', hmem, List.mem_cons]
      constructor
      · rintro (⟨hc, hends⟩ | ⟨rfl, hends⟩)
        · exact ⟨.inr hc, hends⟩
        · exact ⟨.inl rfl, hends⟩
      · rintro ⟨rfl | hc, hends⟩
        · exact .inr ⟨rfl, hends⟩
        · exact .inl ⟨hc, hends⟩

theorem frontierTable_spec (hgrown : Grown t) (hg : Climbable t g) (a : BlockId) :
    (entries (t.frontierTable g) a).Pairwise (· < ·) ∧
      ∀ c, c ∈ entries (t.frontierTable g) a ↔ Ends t g a c := by
  obtain ⟨-, hsorted, hmem⟩ := foldr_markJoin ht hgrown hg (List.range t.bound)
    List.pairwise_lt_range
  refine ⟨hsorted a, fun c => ?_⟩
  rw [frontierTable, hmem, List.mem_range, and_iff_right_iff_imp]
  exact fun hends => ht.lt_bound c hends.1

end Marks

section Tables

theorem mark_congr (h : t.idoms = u.idoms) (b : BlockId) (stop : Option BlockId) (k : Nat)
    (r : BlockId) (F : Array (List BlockId)) : t.mark b stop k r F = u.mark b stop k r F := by
  have hidom : t.idom? = u.idom? := by
    funext x
    rw [idom?, idom?, h]
  induction k generalizing r F with
  | zero => rw [mark, mark]
  | succ k ih =>
      rw [mark, mark, hidom]
      cases u.idom? r with
      | none => rfl
      | some p => simp only [ih]

theorem frontierTable_congr (hroot : t.root = u.root) (hidoms : t.idoms = u.idoms)
    (hspans : t.spans = u.spans) (hdepths : t.depths = u.depths) (g : View) :
    t.frontierTable g = u.frontierTable g := by
  have hcontains : t.contains = u.contains := by
    funext x
    rw [contains, contains, span?, span?, hspans]
  have hjoin : t.markJoin g = u.markJoin g := by
    funext b F
    simp only [markJoin, mark_congr hidoms, hcontains, hroot, depthOf, hdepths, idom?, hidoms]
  rw [frontierTable, frontierTable, bound, bound, hidoms, hjoin]

theorem frontiers_ofNumbering (semis' : Array (Option BlockId)) :
    (ofNumbering g root idoms semis N).frontiers =
      (ofNumbering g root idoms semis' N).frontierTable g := by
  let bare : DomTree :=
    { root, idoms, semis
      kids := childTable idoms
      spans := spanTable N
      depths := depthTable idoms N.preorder
      frontiers := #[]
      preorder := N.preorder }
  exact frontierTable_congr (t := bare) (u := ofNumbering g root idoms semis' N) rfl rfl rfl rfl g

theorem ofIdoms_frontiers (h : ofIdoms g root idoms semis = .ok t) (hg : Climbable t g)
    (a : BlockId) :
    (t.frontierOf a).Pairwise (· < ·) ∧ ∀ b, b ∈ t.frontierOf a ↔ Ends t g a b := by
  obtain ⟨N, hN, rfl⟩ := exists_buildable h
  have hspec := frontierTable_spec hN.levelled hN.grown hg a
  rwa [← frontiers_ofNumbering semis] at hspec

theorem ofIdoms_semis (h : ofIdoms g root idoms semis = .ok t)
    (semis' : Array (Option BlockId)) :
    ofIdoms g root idoms semis' = .ok { t with semis := semis' } := by
  obtain ⟨N, hN, rfl⟩ := exists_buildable h
  rw [hN.ofIdoms_eq]
  have hF : (ofNumbering g root idoms semis' N).frontiers =
      (ofNumbering g root idoms semis N).frontiers := by
    rw [frontiers_ofNumbering semis', frontiers_ofNumbering semis']
  exact congrArg (fun F => Except.ok { ofNumbering g root idoms semis' N with frontiers := F }) hF

theorem ofIdoms_levelled (h : ofIdoms g root idoms semis = .ok t) : Levelled t := by
  obtain ⟨N, hN, rfl⟩ := exists_buildable h
  exact hN.levelled

theorem contains_of_mem_preorder (h : ofIdoms g root idoms semis = .ok t) (hb : b ∈ t.preorder) :
    t.contains b = true := by
  obtain ⟨N, hN, rfl⟩ := exists_buildable h
  exact hN.contains_iff.mpr (hN.exists_pre_iff.mpr (hN.mem_preorder_iff.mp hb))

end Tables

end ControlFlow.DomTree

import ControlFlow.Proofs.DomTree.Stepwise

namespace ControlFlow.DomTree

variable {t : DomTree} {accept accept' : BlockId → Bool} {visit : List BlockId → BlockId → Bool}
  {b m x : BlockId} {bs cs F rest work : List BlockId} {seen : IdSet}

theorem spread_cons : t.spread accept (b :: rest) seen = t.fresh seen b ++
    t.spread accept (((t.fresh seen b).filter accept).reverse ++ rest)
      ((t.fresh seen b).foldl .put seen) := by
  rw [spread]
  split
  · rename_i hf
    rw [hf]
    rfl
  · rename_i m ms hf
    rw [hf]

theorem has_foldl_fresh_iff :
    ((t.fresh seen b).foldl .put seen).has x = true ↔ seen.has x = true ∨ x ∈ t.fresh seen b :=
  IdSet.has_foldl_put_iff fun _ hy => (mem_fresh.mp hy).2.1

theorem spread_congr (h : ∀ m, seen.has m = false → accept m = accept' m) :
    t.spread accept work seen = t.spread accept' work seen := by
  fun_induction spread t accept work seen with
  | case1 seen => rw [spread]
  | case2 b rest seen hf ih => rw [spread_cons, hf]; exact ih h
  | case3 b rest seen m ms hf ih =>
      rw [spread_cons, hf]
      have hfilter : (m :: ms).filter accept = (m :: ms).filter accept' := by
        refine List.filter_congr fun x hx => h x ?_
        rw [← hf] at hx
        exact (mem_fresh.mp hx).2.2
      rw [← hfilter, ih fun x hx => h x ?_]
      rw [← hf, ← Bool.not_eq_true, has_foldl_fresh_iff, not_or, Bool.not_eq_true] at hx
      exact hx.1

theorem Meets.mem_iff_spreads {n : Nat} {met : List BlockId}
    (h : Meets t accept work (.empty n) met) : m ∈ met ↔ Spreads t accept work m := by
  have hmet : ∀ m, (IdSet.empty n).has m = true ∨ m ∈ met → m ∈ met := by
    intro m hm
    rwa [IdSet.has_empty, eq_false Bool.false_ne_true, false_or] at hm
  refine ⟨h.spreads m, fun hm => ?_⟩
  induction hm with
  | start hb hm => exact hmet _ (h.from_work _ hb _ hm)
  | next _ ha hm ih => exact hmet _ (h.from_met _ ih ha _ hm)

namespace Stepwise

section Turn

structure Turned (t : DomTree) (b : BlockId) (seen : IdSet) (work : List BlockId) (s : Hunt) :
    Prop where
  seen_eq : s.seen = (t.fresh seen b).foldl .put seen
  work_eq : ∃ ws, ws ⊆ t.fresh seen b ∧ s.work = ws ++ work

theorem Turned.lex {s : Hunt} (h : Turned t b seen work s) :
    Prod.Lex (· < ·) (· < ·) (s.seen.room, s.work.length) (seen.room, (b :: work).length) := by
  obtain ⟨ws, hws, hwork⟩ := h.work_eq
  rw [h.seen_eq, hwork]
  cases hf : t.fresh seen b with
  | nil =>
      rw [hf] at hws
      rw [List.subset_nil.mp hws]
      exact .right _ (Nat.lt_succ_self _)
  | cons m ms => exact .left _ _ (room_foldl_put_lt hf)

@[elab_as_elim]
theorem rec_turn (t : DomTree) {motive : Hunt → Prop}
    (done : ∀ seen found, motive ⟨seen, [], found⟩)
    (turn : ∀ seen b work found, (∀ s, Turned t b seen work s → motive s) →
      motive ⟨seen, b :: work, found⟩) (s : Hunt) : motive s := by
  obtain ⟨seen, work, found⟩ := s
  cases work with
  | nil => exact done seen found
  | cons b work => exact turn seen b work found fun s hs => rec_turn t done turn s
termination_by (s.seen.room, s.work.length)
decreasing_by exact hs.lex

variable {s : Hunt}

theorem hunt_nil {take : Hunt → BlockId → Except Fault Hunt} {found : List BlockId} :
    hunt t take ⟨seen, [], found⟩ = .ok found :=
  repeatM_of_inr rfl

theorem hunt_cons (h : t.Returned) {take : Hunt → BlockId → Except Fault Hunt}
    {found : List BlockId} (hb : t.contains b = true)
    (hs : (t.frontierOf b).foldlM take ⟨seen, work, found⟩ = .ok s) :
    hunt t take ⟨seen, b :: work, found⟩ = hunt t take s :=
  repeatM_of_inl ((bind_of_ok (h.lookUp_frontiers hb)).trans (bind_of_ok hs))

def unseen (seen : IdSet) (F : List BlockId) : List BlockId :=
  F.filter fun m => decide (m < seen.capacity) && !seen.has m

theorem unseen_cons_of_has (hm : seen.has m = true) : unseen seen (m :: F) = unseen seen F :=
  List.filter_cons_of_neg (by simp [hm])

theorem unseen_cons_of_lt (hlt : m < seen.capacity) (hm : seen.has m = false) :
    unseen seen (m :: F) = m :: unseen seen F :=
  List.filter_cons_of_pos (by simp [hlt, hm])

theorem unseen_put (hlt : m < seen.capacity) (hm : m ∉ F) :
    unseen (seen.put m) F = unseen seen F := by
  refine List.filter_congr fun x hx => ?_
  have hne : m ≠ x := fun e => hm (e ▸ hx)
  rw [IdSet.has_put hlt, decide_eq_false hne, Bool.or_false, IdSet.capacity_put]

end Turn

section Visitor

theorem offer_of_has (hlt : m < s.seen.capacity) (hm : s.seen.has m = true) :
    offer visit s m = .ok s := by
  rw [offer, IdSet.insert_of_lt hlt, hm, IdSet.put_eq_self hlt hm]
  rfl

theorem offer_of_not_has (hlt : m < s.seen.capacity) (hm : s.seen.has m = false) :
    offer visit s m = .ok ⟨s.seen.put m, if visit s.found m then m :: s.work else s.work,
      m :: s.found⟩ := by
  rw [offer, IdSet.insert_of_lt hlt, hm]
  rfl

theorem exists_foldlM_offer (visit : List BlockId → BlockId → Bool) (hF : F.Nodup)
    (hlt : ∀ m ∈ F, m < s.seen.capacity) :
    ∃ accept : BlockId → Bool, (∀ m, ∃ l, accept m = visit l m) ∧
      F.foldlM (offer visit) s = .ok ⟨(unseen s.seen F).foldl .put s.seen,
        ((unseen s.seen F).filter accept).reverse ++ s.work,
        (unseen s.seen F).reverse ++ s.found⟩ := by
  induction F generalizing s with
  | nil => exact ⟨visit [], fun m => ⟨[], rfl⟩, rfl⟩
  | cons m F ih =>
      obtain ⟨hmF, hF⟩ := List.nodup_cons.mp hF
      obtain ⟨hm, hlt⟩ := List.forall_mem_cons.mp hlt
      rw [List.foldlM_cons]
      cases hhas : s.seen.has m with
      | true =>
          rw [offer_of_has hm hhas, unseen_cons_of_has hhas]
          exact ih hF hlt
      | false =>
          rw [offer_of_not_has hm hhas, unseen_cons_of_lt hm hhas]
          obtain ⟨accept, haccept, hfold⟩ := ih (s := ⟨s.seen.put m,
            if visit s.found m then m :: s.work else s.work, m :: s.found⟩) hF hlt
          simp only [unseen_put hm hmF] at hfold
          refine ⟨Function.update accept m (visit s.found m), fun x => ?_, ?_⟩
          · by_cases hx : x = m
            · exact ⟨s.found, by rw [hx, Function.update_self]⟩
            · rw [Function.update_of_ne hx]
              exact haccept x
          · have hsame : (unseen s.seen F).filter (Function.update accept m (visit s.found m)) =
                (unseen s.seen F).filter accept := by
              refine List.filter_congr fun x hx => Function.update_of_ne ?_ _ _
              rintro rfl
              exact hmF (List.mem_of_mem_filter hx)
            refine hfold.trans ?_
            rw [List.filter_cons, Function.update_self, hsame]
            cases visit s.found m <;> simp

/-- What a visitor with a memory is shown is what one without is shown whose answers the other one
could give. -/
theorem exists_hunt_offer (h : t.Returned) (visit : List BlockId → BlockId → Bool) (s : Hunt)
    (hcap : s.seen.capacity = t.bound) (hwork : ∀ b ∈ s.work, t.contains b = true) :
    ∃ accept : BlockId → Bool, (∀ m, ∃ l, accept m = visit l m) ∧ ∃ found,
      hunt t (offer visit) s = .ok found ∧
        found.reverse = s.found.reverse ++ t.spread accept s.work s.seen := by
  induction s using rec_turn t with
  | done seen found =>
      refine ⟨visit [], fun m => ⟨[], rfl⟩, found, hunt_nil, ?_⟩
      rw [spread, List.append_nil]
  | turn seen b work found ih =>
      obtain ⟨hb, hwork⟩ := List.forall_mem_cons.mp hwork
      have hin : ∀ m ∈ t.frontierOf b, t.contains m = true :=
        fun m hm => h.contains_of_mem_frontierOf hm
      obtain ⟨first, hfirst, hfold⟩ := exists_foldlM_offer (s := ⟨seen, work, found⟩) visit
        ((h.frontierOf_pairwise b).imp Nat.ne_of_lt)
        fun m hm => hcap ▸ h.levelled.lt_bound m (hin m hm)
      have hturned : Turned t b seen work ⟨(t.fresh seen b).foldl .put seen,
          ((t.fresh seen b).filter first).reverse ++ work, (t.fresh seen b).reverse ++ found⟩ :=
        ⟨rfl, _, fun m hm => List.mem_of_mem_filter (List.mem_reverse.mp hm), rfl⟩
      have hnext : ∀ x ∈ ((t.fresh seen b).filter first).reverse ++ work, t.contains x = true := by
        intro x hx
        rcases List.mem_append.mp hx with hx | hx
        · have hfresh := List.mem_of_mem_filter (List.mem_reverse.mp hx)
          exact hin x (mem_fresh.mp hfresh).1
        · exact hwork x hx
      obtain ⟨later, hlater, found', hhunt, hfound⟩ :=
        ih _ hturned ((IdSet.capacity_foldl_put _ _).trans hcap) hnext
      refine ⟨fun m => if m ∈ t.fresh seen b then first m else later m, fun m => ?_, found',
        (hunt_cons h hb hfold).trans hhunt, ?_⟩
      · dsimp only
        split
        · exact hfirst m
        · exact hlater m
      · have hfilter : (t.fresh seen b).filter
            (fun m => if m ∈ t.fresh seen b then first m else later m) =
              (t.fresh seen b).filter first :=
          List.filter_congr fun m hm => if_pos hm
        rw [spread_cons, hfilter, hfound, List.reverse_append, List.reverse_reverse,
          List.append_assoc]
        congr 2
        refine spread_congr fun m hm => (if_neg fun hmem => ?_).symm
        rw [has_foldl_fresh_iff.mpr (.inr hmem)] at hm
        cases hm

theorem prunedIteratedFrontier_eq (h : t.Returned) (b : BlockId)
    (visit : List BlockId → BlockId → Bool) :
    ∃ accept : BlockId → Bool, (∀ m, ∃ l, accept m = visit l m) ∧
      prunedIteratedFrontier t b visit = t.prunedIteratedFrontier b accept := by
  by_cases hb : t.contains b = true
  · obtain ⟨accept, haccept, found, hhunt, hfound⟩ := exists_hunt_offer h visit
      ⟨.empty t.bound, [b], []⟩ rfl (List.forall_mem_singleton.mpr hb)
    exact ⟨accept, haccept, require_bind_eq fun _ =>
      (bind_of_ok hhunt).trans (congrArg Except.ok hfound)⟩
  · exact ⟨visit [], fun m => ⟨[], rfl⟩, require_bind_eq fun h => absurd h hb⟩

theorem prunedIteratedFrontier_const_eq (h : t.Returned) (b : BlockId) (accept : BlockId → Bool) :
    prunedIteratedFrontier t b (fun _ => accept) = t.prunedIteratedFrontier b accept := by
  obtain ⟨accept', hvisit, heq⟩ := prunedIteratedFrontier_eq h b fun _ => accept
  have hsame : accept' = accept := funext fun m => (hvisit m).choose_spec
  rw [heq, hsame]

end Visitor

section Closure

theorem record_of_has (hlt : m < s.seen.capacity) (hm : s.seen.has m = true) :
    record s m = .ok { s with found := s.found.insert m } := by
  rw [record, IdSet.insert_of_lt hlt, hm, IdSet.put_eq_self hlt hm]
  rfl

theorem record_of_not_has (hlt : m < s.seen.capacity) (hm : s.seen.has m = false) :
    record s m = .ok ⟨s.seen.put m, m :: s.work, s.found.insert m⟩ := by
  rw [record, IdSet.insert_of_lt hlt, hm]
  rfl

theorem foldlM_record (hF : F.Nodup) (hlt : ∀ m ∈ F, m < s.seen.capacity) :
    F.foldlM record s = .ok ⟨(unseen s.seen F).foldl .put s.seen,
      (unseen s.seen F).reverse ++ s.work, F.foldl (fun l m => l.insert m) s.found⟩ := by
  induction F generalizing s with
  | nil => rfl
  | cons m F ih =>
      obtain ⟨hmF, hF⟩ := List.nodup_cons.mp hF
      obtain ⟨hm, hlt⟩ := List.forall_mem_cons.mp hlt
      rw [List.foldlM_cons]
      cases hhas : s.seen.has m with
      | true =>
          rw [record_of_has hm hhas, unseen_cons_of_has hhas]
          exact ih hF hlt
      | false =>
          rw [record_of_not_has hm hhas, unseen_cons_of_lt hm hhas]
          have hrest := ih (s := ⟨s.seen.put m, m :: s.work, s.found.insert m⟩) hF hlt
          simp only [unseen_put hm hmF] at hrest
          refine Eq.trans hrest ?_
          rw [List.reverse_cons, List.append_assoc]
          rfl

theorem mem_foldl_insert {l : List BlockId} :
    x ∈ F.foldl (fun l m => l.insert m) l ↔ x ∈ l ∨ x ∈ F := by
  induction F generalizing l with
  | nil => simp
  | cons m F ih => rw [List.foldl_cons, ih, List.mem_insert_iff, List.mem_cons]; tauto

theorem nodup_foldl_insert {l : List BlockId} (hl : l.Nodup) :
    (F.foldl (fun l m => l.insert m) l).Nodup :=
  List.foldlRecOn (motive := List.Nodup) _ _ hl fun _ hl _ _ => hl.insert

structure Collects (t : DomTree) (bs : List BlockId) (s : Hunt) : Prop where
  capacity : s.seen.capacity = t.bound
  nodup : s.found.Nodup
  spreads : ∀ m ∈ s.found, Spreads t (fun _ => true) bs m
  has_iff : ∀ x, s.seen.has x = true ↔ x ∈ bs ∨ x ∈ s.found
  waits : ∀ x ∈ s.work, s.seen.has x = true
  taken : ∀ x, s.seen.has x = true → x ∈ s.work ∨ ∀ m ∈ t.frontierOf x, m ∈ s.found

theorem Collects.turn {found : List BlockId} (h : Collects t bs ⟨seen, b :: work, found⟩)
    (hlt : ∀ m ∈ t.frontierOf b, m < seen.capacity) :
    Collects t bs ⟨(t.fresh seen b).foldl .put seen, (t.fresh seen b).reverse ++ work,
      (t.frontierOf b).foldl (fun l m => l.insert m) found⟩ where
  capacity := (IdSet.capacity_foldl_put _ _).trans h.capacity
  nodup := nodup_foldl_insert h.nodup
  spreads m hm := by
    rcases mem_foldl_insert.mp hm with hm | hm
    · exact h.spreads m hm
    · rcases (h.has_iff b).mp (h.waits b List.mem_cons_self) with hb | hb
      · exact .start hb hm
      · exact .next (h.spreads b hb) rfl hm
  has_iff x := by
    rw [has_foldl_fresh_iff, mem_foldl_insert, h.has_iff, or_assoc]
    constructor
    · exact Or.imp_right (Or.imp_right fun hx => (mem_fresh.mp hx).1)
    · rintro (hx | hx | hx)
      · exact .inl hx
      · exact .inr (.inl hx)
      · rw [← or_assoc, ← h.has_iff]
        cases hhas : seen.has x with
        | true => exact .inl rfl
        | false => exact .inr (mem_fresh.mpr ⟨hx, hlt x hx, hhas⟩)
  waits x hx := by
    rw [has_foldl_fresh_iff]
    rcases List.mem_append.mp hx with hx | hx
    · exact .inr (List.mem_reverse.mp hx)
    · exact .inl (h.waits x (List.mem_cons_of_mem b hx))
  taken x hx := by
    have hkeep : ∀ m, m ∈ found ∨ m ∈ t.frontierOf b →
        m ∈ (t.frontierOf b).foldl (fun l m => l.insert m) found :=
      fun m => mem_foldl_insert.mpr
    rcases has_foldl_fresh_iff.mp hx with hx | hx
    · rcases h.taken x hx with hx | hx
      · rcases List.mem_cons.mp hx with rfl | hx
        · exact .inr fun m hm => hkeep m (.inr hm)
        · exact .inl (List.mem_append_right _ hx)
      · exact .inr fun m hm => hkeep m (.inl (hx m hm))
    · exact .inl (List.mem_append_left _ (List.mem_reverse.mpr hx))

theorem Collects.mem_iff {seen : IdSet} {found : List BlockId}
    (h : Collects t bs ⟨seen, [], found⟩) : m ∈ found ↔ Spreads t (fun _ => true) bs m := by
  have htaken : ∀ x, x ∈ bs ∨ x ∈ found → ∀ m ∈ t.frontierOf x, m ∈ found := by
    intro x hx
    exact (h.taken x ((h.has_iff x).mpr hx)).resolve_left List.not_mem_nil
  refine ⟨h.spreads m, fun hm => ?_⟩
  induction hm with
  | start hb hm => exact htaken _ (.inl hb) _ hm
  | next _ _ hm ih => exact htaken _ (.inr ih) _ hm

theorem Collects.exists_hunt (h : t.Returned) (hbs : ∀ b ∈ bs, t.contains b = true) (s : Hunt)
    (hs : Collects t bs s) :
    ∃ seen found, hunt t record s = .ok found ∧ Collects t bs ⟨seen, [], found⟩ := by
  induction s using rec_turn t with
  | done seen found => exact ⟨seen, found, hunt_nil, hs⟩
  | turn seen b work found ih =>
      have hb : t.contains b = true := by
        rcases (hs.has_iff b).mp (hs.waits b List.mem_cons_self) with hb | hb
        · exact hbs b hb
        · exact h.contains_of_spreads (hs.spreads b hb)
      have hlt : ∀ m ∈ t.frontierOf b, m < seen.capacity := fun m hm =>
        hs.capacity ▸ h.levelled.lt_bound m (h.contains_of_mem_frontierOf hm)
      have hfold := foldlM_record (s := ⟨seen, work, found⟩)
        ((h.frontierOf_pairwise b).imp Nat.ne_of_lt) hlt
      obtain ⟨seen', found', hhunt, hs'⟩ := ih _
        ⟨rfl, _, fun m hm => List.mem_reverse.mp hm, rfl⟩ (hs.turn hlt)
      exact ⟨seen', found', (hunt_cons h hb hfold).trans hhunt, hs'⟩

structure Seeds (t : DomTree) (bs : List BlockId) (s : Hunt) : Prop where
  capacity : s.seen.capacity = t.bound
  found_eq : s.found = []
  has_iff : ∀ x, s.seen.has x = true ↔ x ∈ bs
  work_iff : ∀ x, x ∈ s.work ↔ x ∈ bs

theorem Seeds.collects (h : Seeds t bs s) : Collects t bs s where
  capacity := h.capacity
  nodup := h.found_eq ▸ .nil
  spreads m hm := by
    rw [h.found_eq] at hm
    cases hm
  has_iff x := by rw [h.has_iff, h.found_eq, or_iff_left List.not_mem_nil]
  waits x hx := (h.has_iff x).mpr ((h.work_iff x).mp hx)
  taken x hx := .inl ((h.work_iff x).mpr ((h.has_iff x).mp hx))

theorem Seeds.exists_seed (h : t.Returned) (hs : Seeds t bs s) (hb : t.contains b = true) :
    ∃ s', seed t s b = .ok s' ∧ Seeds t (bs ++ [b]) s' := by
  have hlt : b < s.seen.capacity := hs.capacity ▸ h.levelled.lt_bound b hb
  refine ⟨⟨s.seen.put b, if !s.seen.has b then b :: s.work else s.work, s.found⟩, ?_, hs.capacity,
    hs.found_eq, fun x => ?_, fun x => ?_⟩
  · rw [seed, require_eq_ok_iff.mpr hb, IdSet.insert_of_lt hlt]
    rfl
  · rw [IdSet.has_put hlt, Bool.or_eq_true, hs.has_iff, decide_eq_true_eq, List.mem_append,
      List.mem_singleton, eq_comm]
  · dsimp only
    rw [List.mem_append, List.mem_singleton]
    cases hhas : s.seen.has b with
    | true =>
        have hbs := (hs.has_iff b).mp hhas
        rw [Bool.not_true, if_neg Bool.false_ne_true, hs.work_iff]
        exact ⟨.inl, fun hx => hx.elim id fun e => e ▸ hbs⟩
    | false => rw [Bool.not_false, if_pos rfl, List.mem_cons, hs.work_iff, or_comm]

theorem Seeds.exists_foldlM (h : t.Returned) (hs : Seeds t bs s)
    (hcs : ∀ c ∈ cs, t.contains c = true) :
    ∃ s', cs.foldlM (seed t) s = .ok s' ∧ Seeds t (bs ++ cs) s' := by
  induction cs generalizing bs s with
  | nil => exact ⟨s, rfl, by rwa [List.append_nil]⟩
  | cons c cs ih =>
      obtain ⟨hc, hcs⟩ := List.forall_mem_cons.mp hcs
      obtain ⟨s', hseed, hs'⟩ := hs.exists_seed h hc
      rw [List.foldlM_cons, hseed, List.append_cons]
      exact ih hs' hcs

theorem Seeds.foldlM_error (h : t.Returned) (hs : Seeds t bs s) {e : Fault}
    (he : cs.forM t.require = .error e) : cs.foldlM (seed t) s = .error e := by
  induction cs generalizing bs s with
  | nil => cases he
  | cons c cs ih =>
      change (t.require c >>= fun _ => cs.forM t.require) = .error e at he
      rw [List.foldlM_cons]
      by_cases hc : t.contains c = true
      · obtain ⟨s', hseed, hs'⟩ := hs.exists_seed h hc
        rw [require_eq_ok_iff.mpr hc] at he
        rw [hseed]
        exact ih hs' he
      · rw [require, if_neg hc] at he
        cases he
        rw [seed, require, if_neg hc]
        rfl

theorem seeds_nil : Seeds t [] ⟨.empty t.bound, [], []⟩ where
  capacity := rfl
  found_eq := rfl
  has_iff x := by simp [IdSet.has_empty]
  work_iff _ := Iff.rfl

theorem forM_require_cases (bs : List BlockId) :
    (∀ b ∈ bs, t.contains b = true) ∧ bs.forM t.require = .ok () ∨
      ∃ b ∈ bs, t.contains b = false ∧ bs.forM t.require = .error (.outsideTree b t.root) := by
  induction bs with
  | nil => exact .inl ⟨fun _ h => absurd h List.not_mem_nil, rfl⟩
  | cons b bs ih =>
      have hcons : (b :: bs).forM t.require = (do t.require b; bs.forM t.require) := rfl
      by_cases hb : t.contains b = true
      · rw [require_eq_ok_iff.mpr hb] at hcons
        rcases ih with ⟨hbs, hok⟩ | ⟨c, hc, hcout, herror⟩
        · exact .inl ⟨List.forall_mem_cons.mpr ⟨hb, hbs⟩, hcons.trans hok⟩
        · exact .inr ⟨c, List.mem_cons_of_mem b hc, hcout, hcons.trans herror⟩
      · rw [require, if_neg hb] at hcons
        exact .inr ⟨b, List.mem_cons_self, Bool.not_eq_true _ ▸ hb, hcons⟩

theorem iteratedFrontierOf_eq (h : t.Returned) (bs : List BlockId) :
    iteratedFrontierOf t bs = t.iteratedFrontierOf bs := by
  rw [iteratedFrontierOf, DomTree.iteratedFrontierOf]
  rcases forM_require_cases (t := t) bs with ⟨hbs, hok⟩ | ⟨b, -, -, herror⟩
  · obtain ⟨s, hseeds, hs⟩ := seeds_nil.exists_foldlM h hbs
    obtain ⟨seen, found, hhunt, hcollects⟩ := hs.collects.exists_hunt h hbs
    have hmet := h.meets_spread (fun _ => true) bs
    have hsame : found.mergeSort (· ≤ ·) =
        (t.spread (fun _ => true) bs (.empty t.bound)).mergeSort (· ≤ ·) := by
      refine (pairwise_lt_mergeSort hcollects.nodup).eq_of_mem_iff
        (pairwise_lt_mergeSort hmet.nodup) fun m => ?_
      rw [List.mem_mergeSort, List.mem_mergeSort, hcollects.mem_iff, hmet.mem_iff_spreads]
    rw [bind_of_ok hseeds, bind_of_ok hhunt, bind_of_ok hok, hsame]
  · rw [seeds_nil.foldlM_error h herror, herror]
    rfl

end Closure

end Stepwise

end ControlFlow.DomTree

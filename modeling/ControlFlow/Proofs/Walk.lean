import ControlFlow.Proofs.Numbering.Finished
import ControlFlow.Walk

namespace ControlFlow

variable {g : View} {b c root : BlockId} {bs : List BlockId} {s : IdSet}

namespace IdSet

theorem capacity_foldl_put (bs : List BlockId) (s : IdSet) :
    (bs.foldl .put s).capacity = s.capacity := by
  induction bs generalizing s with
  | nil => rfl
  | cons b bs ih => exact ih (s.put b)

theorem has_foldl_put_iff (h : ∀ b ∈ bs, b < s.capacity) :
    (bs.foldl .put s).has c = true ↔ s.has c = true ∨ c ∈ bs := by
  induction bs generalizing s with
  | nil => simp
  | cons b bs ih =>
      rw [List.foldl_cons, ih (s := s.put b) fun x hx => h x (List.mem_cons_of_mem _ hx),
        has_put (h b List.mem_cons_self), Bool.or_eq_true, decide_eq_true_eq, List.mem_cons,
        or_assoc, @eq_comm _ b c]

theorem foldlM_insert (h : ∀ b ∈ bs, b < s.capacity) :
    bs.foldlM (fun seen b => do return (← seen.insert b).2) s = .ok (bs.foldl .put s) := by
  induction bs generalizing s with
  | nil => rfl
  | cons b bs ih =>
      obtain ⟨hb, hbs⟩ := List.forall_mem_cons.mp h
      rw [List.foldlM_cons, insert_of_lt hb]
      exact ih (s := s.put b) hbs

end IdSet

theorem Walk.rest_eq (g : View) (w : Walk) :
    w.rest g =
      match next g w.pending w.seen with
      | .error e => .error e
      | .ok none => .ok []
      | .ok (some (b, w')) => do
          let bs ← rest g w'
          return b :: bs := by
  rw [rest]
  split <;> simp only [*]

theorem IdSet.unseen_eq (h : ∀ b ∈ bs, b < s.capacity) :
    s.unseen bs = .ok (bs.filter fun b => !s.has b) := by
  induction bs with
  | nil => rfl
  | cons b bs ih =>
      obtain ⟨hb, hbs⟩ := List.forall_mem_cons.mp h
      rw [unseen, ih hbs, contains_of_lt hb]
      cases hseen : s.has b <;> simp [bind, Except.bind, pure, Except.pure, hseen]

theorem IdSet.exists_unseen (h : ∀ b ∈ bs, b < s.capacity) :
    ∃ rest, s.unseen bs = .ok rest ∧ ∀ c, c ∈ rest ↔ c ∈ bs ∧ s.has c = false :=
  ⟨_, unseen_eq h, fun c => by simp⟩

namespace Walk

structure Inside (g : View) (root : BlockId) (pending : List BlockId) (seen : IdSet) : Prop where
  capacity : seen.capacity = g.bound
  reaches : ∀ b ∈ pending, b < g.bound ∧ g.Reaches root b
  closed : ∀ u v, seen.has u = true → g.Step u v → seen.has v = true ∨ v ∈ pending

theorem Inside.skip (h : Inside g root (b :: bs) s) (hseen : s.has b = true) :
    Inside g root bs s := by
  refine ⟨h.capacity, fun c hc => h.reaches c (List.mem_cons_of_mem b hc), fun u v hu huv => ?_⟩
  rcases h.closed u v hu huv with hv | hv
  · exact .inl hv
  · rcases List.mem_cons.mp hv with rfl | hv
    · exact .inl hseen
    · exact .inr hv

theorem Inside.visit (h : Inside g root (b :: bs) s) (hrange : g.InRange root) :
    ∃ more, (s.put b).unseen (g.succs b) = .ok more ∧ Inside g root (more ++ bs) (s.put b) := by
  obtain ⟨hlt, hb⟩ := h.reaches b List.mem_cons_self
  have hput := IdSet.has_put (Nat.lt_of_lt_of_eq hlt h.capacity.symm)
  have hin : ∀ c ∈ g.succs b, c < g.bound := hrange b hb
  obtain ⟨more, hmore, hmem⟩ := (s.put b).exists_unseen fun c hc =>
    Nat.lt_of_lt_of_eq (hin c hc) h.capacity.symm
  refine ⟨more, hmore, h.capacity, fun c hc => ?_, fun u v hu huv => ?_⟩
  · rcases List.mem_append.mp hc with hc | hc
    · have hc := ((hmem c).mp hc).1
      exact ⟨hin c hc, hb.tail hc⟩
    · exact h.reaches c (List.mem_cons_of_mem b hc)
  · cases hv : (s.put b).has v with
    | true => exact .inl rfl
    | false =>
        rw [hput, Bool.or_eq_true, decide_eq_true_eq] at hu
        refine .inr (List.mem_append.mpr ?_)
        rcases hu with hu | rfl
        · rcases h.closed u v hu huv with hv' | hv'
          · simp [hput, hv'] at hv
          · rcases List.mem_cons.mp hv' with rfl | hv'
            · simp [hput] at hv
            · exact .inr hv'
        · exact .inl ((hmem v).mpr ⟨huv, hv⟩)

theorem Inside.next (h : Inside g root bs s) (hrange : g.InRange root) :
    (Walk.next g bs s = .ok none ∧ ∀ c ∈ bs, s.has c = true) ∨
      ∃ b w, Walk.next g bs s = .ok (some (b, w)) ∧ b ∈ bs ∧ w.seen = s.put b ∧
        (∀ c ∈ bs, s.has c = true ∨ c = b ∨ c ∈ w.pending) ∧
        Inside g root w.pending w.seen := by
  induction bs with
  | nil => exact .inl ⟨rfl, fun c hc => absurd hc List.not_mem_nil⟩
  | cons b bs ih =>
      rw [Walk.next, if_pos (h.capacity ▸ (h.reaches b List.mem_cons_self).1)]
      cases hseen : s.has b with
      | true =>
          rcases ih (h.skip hseen) with ⟨hnone, hall⟩ | ⟨c, w, hnext, hc, hput, hkept, hw⟩
          · exact .inl ⟨hnone, List.forall_mem_cons.mpr ⟨hseen, hall⟩⟩
          · exact .inr ⟨c, w, hnext, List.mem_cons_of_mem b hc, hput,
              List.forall_mem_cons.mpr ⟨.inl hseen, hkept⟩, hw⟩
      | false =>
          obtain ⟨more, hmore, hinside⟩ := h.visit hrange
          rw [if_neg Bool.false_ne_true, hmore]
          exact .inr ⟨b, _, rfl, List.mem_cons_self, rfl, List.forall_mem_cons.mpr
            ⟨.inr (.inl rfl), fun c hc => .inr (.inr (List.mem_append_right more hc))⟩, hinside⟩

structure Completes (g : View) (root : BlockId) (w : Walk) (bs : List BlockId) : Prop where
  reaches : ∀ c ∈ bs, g.Reaches root c
  pending : ∀ c ∈ w.pending, w.seen.has c = true ∨ c ∈ bs
  closed : ∀ u v, w.seen.has u = true ∨ u ∈ bs → g.Step u v → w.seen.has v = true ∨ v ∈ bs

theorem Inside.exists_rest (w : Walk) (h : Inside g root w.pending w.seen)
    (hrange : g.InRange root) : ∃ bs, w.rest g = .ok bs ∧ Completes g root w bs := by
  rw [rest_eq]
  rcases h.next hrange with ⟨hnone, hall⟩ | ⟨b, w', hnext, hb, hput, hkept, h'⟩
  · rw [hnone]
    refine ⟨[], rfl, fun c hc => absurd hc List.not_mem_nil, fun c hc => .inl (hall c hc), ?_⟩
    intro u v hu huv
    rcases h.closed u v (hu.resolve_right List.not_mem_nil) huv with hv | hv
    · exact .inl hv
    · exact .inl (hall v hv)
  · have hroom := room_next hnext
    obtain ⟨bs, hbs, hcompletes⟩ := Inside.exists_rest w' h' hrange
    rw [hnext]
    dsimp only
    rw [hbs]
    obtain ⟨hlt, hreach⟩ := h.reaches b hb
    have hmem : ∀ c, (w'.seen.has c = true ∨ c ∈ bs) ↔ w.seen.has c = true ∨ c ∈ b :: bs := by
      intro c
      rw [hput, IdSet.has_put (Nat.lt_of_lt_of_eq hlt h.capacity.symm), Bool.or_eq_true,
        decide_eq_true_eq, List.mem_cons, or_assoc, @eq_comm _ b c]
    refine ⟨b :: bs, rfl, List.forall_mem_cons.mpr ⟨hreach, hcompletes.reaches⟩, fun c hc => ?_,
      fun u v hu huv => ?_⟩
    · rcases hkept c hc with hc | rfl | hc
      · exact .inl hc
      · exact .inr List.mem_cons_self
      · exact (hmem c).mp (hcompletes.pending c hc)
    · exact (hmem v).mp (hcompletes.closed u v ((hmem u).mpr hu) huv)
termination_by w.seen.room

theorem inside_start : Inside g root (start g root).pending (start g root).seen := by
  refine ⟨rfl, fun b hb => ?_, fun u v hu => ?_⟩
  · rw [start] at hb
    split at hb
    · rename_i hlt
      rw [List.mem_singleton.mp hb]
      exact ⟨hlt, .refl⟩
    · cases hb
  · rw [start, IdSet.has_empty] at hu
    cases hu

theorem Completes.mem_iff (h : Completes g root (start g root) bs) (hroot : root < g.bound) :
    b ∈ bs ↔ g.Reaches root b := by
  have hseen : ∀ c, (start g root).seen.has c = true ∨ c ∈ bs ↔ c ∈ bs :=
    fun c => or_iff_right (by simp [start, IdSet.has_empty])
  refine ⟨h.reaches b, fun hb => ?_⟩
  induction hb with
  | refl => exact (hseen root).mp (h.pending root (by simp [start, hroot]))
  | @tail u v _ huv ih => exact (hseen v).mp (h.closed u v (.inr ih) huv)

end Walk

theorem View.exists_preorder (hrange : g.InRange root) :
    ∃ bs, g.preorder root = .ok bs ∧ (root < g.bound → ∀ b, b ∈ bs ↔ g.Reaches root b) := by
  obtain ⟨bs, hbs, hcompletes⟩ := Walk.inside_start.exists_rest _ hrange
  exact ⟨bs, hbs, fun hroot b => hcompletes.mem_iff hroot⟩

theorem View.exists_reachable (hrange : g.InRange root) (hroot : root < g.bound) :
    ∃ s, g.reachable root = .ok s ∧ s.capacity = g.bound ∧
      ∀ b, s.has b = true ↔ g.Reaches root b := by
  obtain ⟨bs, hbs, hmem⟩ := exists_preorder hrange
  have hlt : ∀ c ∈ bs, c < (IdSet.empty g.bound).capacity := by
    intro c hc
    rcases ((hmem hroot c).mp hc).cases_tail with rfl | ⟨d, hd, hdc⟩
    · exact hroot
    · exact hrange d hd c hdc
  refine ⟨bs.foldl .put (.empty g.bound), ?_, IdSet.capacity_foldl_put bs _, fun b => ?_⟩
  · rw [reachable, hbs]
    exact IdSet.foldlM_insert hlt
  · rw [IdSet.has_foldl_put_iff hlt, IdSet.has_empty, hmem hroot,
      or_iff_right Bool.false_ne_true]

end ControlFlow

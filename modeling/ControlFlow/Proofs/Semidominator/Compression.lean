import ControlFlow.Proofs.Semidominator.Forest

namespace ControlFlow

/-- A loop that makes the turn `f` comes from the state `s` to its end with `y`. -/
inductive Ends {σ β : Type} (f : σ → σ ⊕ β) : σ → β → Prop
  | last {s : σ} {y : β} : f s = .inr y → Ends f s y
  | turn {s s' : σ} {y : β} : f s = .inl s' → Ends f s' y → Ends f s y

namespace SemiForest

variable {n t : Nat} {F : SemiForest n} {S : Spanning n} {x : Fin n}

def Falls (F : SemiForest n) : Prop :=
  ∀ x a, F.up.get x = some a → a < x

theorem Tracks.falls (hF : F.Tracks S t) : F.Falls :=
  fun _ _ hx => (hF.points hx).lt

def climb (F : SemiForest n) : Fin n × List (Fin n) → (Fin n × List (Fin n)) ⊕ List (Fin n)
  | (x, noted) =>
      match F.up.get x with
      | none => .inr noted
      | some a => if (F.up.get a).isNone then .inr noted else .inl (a, x :: noted)

def raise : SemiForest n × List (Fin n) → (SemiForest n × List (Fin n)) ⊕ SemiForest n
  | (F, []) => .inr F
  | (F, x :: noted) =>
      match F.up.get x with
      | none => .inl (F, noted)
      | some a => .inl (F.skip x a, noted)

theorem ends_climb (hF : F.Falls) (x : Fin n) (below : List (Fin n × Fin n)) :
    Ends F.climb (x, below.map Prod.fst) ((F.links x below).map Prod.fst) := by
  induction hk : x.val using Nat.strongRecOn generalizing x below with
  | ind k ih =>
      rw [links]
      cases hx : F.up.get x with
      | none => exact .last (by simp only [climb, hx])
      | some a =>
          have hax := hF x a hx
          simp only [hax, dif_pos]
          cases ha : F.up.get a with
          | none => exact .last (by simp [climb, hx, ha])
          | some b =>
              have hturn : F.climb (x, below.map Prod.fst) =
                  .inl (a, ((x, a) :: below).map Prod.fst) := by
                simp [climb, hx, ha]
              exact .turn hturn (ih a.val (hk ▸ hax) a _ rfl)

theorem links_spec (hF : F.Falls) (x : Fin n) :
    (∀ l ∈ F.links x [], F.up.get l.1 = some l.2 ∧ l.1 ≤ x) ∧
      (F.links x []).Pairwise (·.1 < ·.1) := by
  induction hk : x.val using Nat.strongRecOn generalizing x with
  | ind k ih =>
      rw [links]
      cases hx : F.up.get x with
      | none => exact ⟨List.forall_mem_nil _, .nil⟩
      | some a =>
          have hax := hF x a hx
          simp only [hax, dif_pos]
          cases ha : F.up.get a with
          | none => exact ⟨List.forall_mem_nil _, .nil⟩
          | some b =>
              obtain ⟨hlinks, hpairwise⟩ := ih a.val (hk ▸ hax) a rfl
              simp only [Option.isSome_some, if_true]
              rw [links_append]
              refine ⟨fun l hl => ?_, List.pairwise_append.mpr
                ⟨hpairwise, List.pairwise_singleton _ _, ?_⟩⟩
              · rcases List.mem_append.mp hl with hl | hl
                · exact ⟨(hlinks l hl).1, (hlinks l hl).2.trans hax.le⟩
                · rw [List.mem_singleton.mp hl]
                  exact ⟨hx, le_rfl⟩
              · intro l hl m hm
                rw [List.mem_singleton.mp hm]
                exact (hlinks l hl).2.trans_lt hax

theorem ends_raise (ls : List (Fin n × Fin n)) (hls : ∀ l ∈ ls, F.up.get l.1 = some l.2)
    (hpairwise : ls.Pairwise (·.1 < ·.1)) :
    Ends raise (F, ls.map Prod.fst) (ls.foldl (fun F l => F.skip l.1 l.2) F) := by
  induction ls generalizing F with
  | nil => exact .last rfl
  | cons l ls ih =>
      obtain ⟨hl, hls⟩ := List.forall_mem_cons.mp hls
      obtain ⟨hlt, hpairwise⟩ := List.pairwise_cons.mp hpairwise
      have hturn : raise (F, (l :: ls).map Prod.fst) =
          .inl (F.skip l.1 l.2, ls.map Prod.fst) := by
        simp only [List.map_cons, raise, hl]
      refine .turn hturn (ih (fun m hm => ?_) hpairwise)
      rw [up_skip, if_neg (hlt m hm).ne]
      exact hls m hm

theorem ends_compress (hF : F.Falls) (x : Fin n) :
    ∃ noted, Ends F.climb (x, []) noted ∧ Ends raise (F, noted) (F.compress x) := by
  obtain ⟨hlinks, hpairwise⟩ := links_spec hF x
  exact ⟨_, ends_climb hF x [], ends_raise _ (fun l hl => (hlinks l hl).1) hpairwise⟩

end SemiForest

end ControlFlow

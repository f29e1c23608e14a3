import ControlFlow.Proofs.Flowgraph.Change

namespace ControlFlow

variable {π : Type} {b c : BlockId}

namespace Block

variable (x : Block π)

def roles (x : Block π) : Bool × Bool :=
  (x.isEntry, x.isExit)

theorem roles_addPred (b : BlockId) : (x.addPred b).roles = x.roles := by
  rw [addPred]
  split <;> rfl

theorem succs_addPred (b : BlockId) : (x.addPred b).succs = x.succs := by
  rw [addPred]
  split <;> rfl

theorem target?_addPred (b : BlockId) (arm : Arm) : (x.addPred b).target? arm = x.target? arm := by
  rw [addPred]
  split <;> cases arm <;> rfl

theorem roles_addSucc (b : BlockId) : (x.addSucc b).roles = x.roles := by
  rw [addSucc]
  split <;> rfl

theorem preds_addSucc (b : BlockId) : (x.addSucc b).preds = x.preds := by
  rw [addSucc]
  split <;> rfl

theorem roles_aim (arm : Arm) (b : BlockId) : (x.aim arm b).roles = x.roles := by
  cases arm <;> rfl

theorem preds_aim (arm : Arm) (b : BlockId) : (x.aim arm b).preds = x.preds := by
  cases arm <;> rfl

theorem roles_adopt (b : BlockId) (flow : Flow) :
    (Flowgraph.adopt b flow x).roles = x.roles := by
  cases flow <;> simp only [Flowgraph.adopt, roles_aim, roles_addSucc]

theorem preds_adopt (b : BlockId) (flow : Flow) :
    (Flowgraph.adopt b flow x).preds = x.preds := by
  cases flow <;> simp only [Flowgraph.adopt, preds_aim, preds_addSucc]

def isSentinel (x : Block π) : Sentinel → Bool
  | .entry => x.isEntry
  | .exit => x.isExit

variable {s s' : Sentinel}

theorem isSentinel_mark : (x.mark s).isSentinel s = true := by
  cases s <;> rfl

theorem isSentinel_mark_of_ne (h : s' ≠ s) : (x.mark s).isSentinel s' = x.isSentinel s' := by
  cases s <;> cases s' <;> first | rfl | exact absurd rfl h

theorem preds_mark : (x.mark s).preds = x.preds := by
  cases s <;> rfl

theorem succs_mark : (x.mark s).succs = x.succs := by
  cases s <;> rfl

theorem nodes_mark : (x.mark s).nodes = x.nodes := by
  cases s <;> rfl

theorem target?_mark (arm : Arm) : (x.mark s).target? arm = x.target? arm := by
  cases s <;> cases arm <;> rfl

end Block

namespace Flowgraph

variable {g g' g'' : Flowgraph π} {f : Block π → Block π}

def Flagged (flag : Block π → Bool) (named : Option BlockId) (g : Flowgraph π) : Prop :=
  ∀ b, named = some b ↔ ∃ x, g.block? b = some x ∧ flag x = true

theorem exists_name (s : Sentinel) (b : BlockId) :
    ∃ entry exit, g.name s b = { g with entry, exit } := by
  cases s with
  | entry => exact ⟨some b, g.exit, rfl⟩
  | exit => exact ⟨g.entry, some b, rfl⟩

theorem sentinel?_name (s s' : Sentinel) :
    (g.name s b).sentinel? s' = if s' = s then some b else g.sentinel? s' := by
  cases s <;> cases s' <;> rfl

structure SameRoles (g g' : Flowgraph π) : Prop where
  size : g'.blocks.size = g.blocks.size
  roles : ∀ b, (g'.block? b).map Block.roles = (g.block? b).map Block.roles
  entry : g'.entry = g.entry
  exit : g'.exit = g.exit
  live : g'.live = g.live

namespace SameRoles

theorem refl (g : Flowgraph π) : SameRoles g g :=
  ⟨rfl, fun _ => rfl, rfl, rfl, rfl⟩

theorem trans (h : SameRoles g g') (h' : SameRoles g' g'') : SameRoles g g'' :=
  ⟨h'.size.trans h.size, fun b => (h'.roles b).trans (h.roles b), h'.entry.trans h.entry,
    h'.exit.trans h.exit, h'.live.trans h.live⟩

theorem relabel (h : SameRoles g g') (E : EdgeIndex) : SameRoles g { g' with edges := E } :=
  ⟨h.size, h.roles, h.entry, h.exit, h.live⟩

theorem update (h : SameRoles g g') (hf : ∀ x, (f x).roles = x.roles) :
    SameRoles g (g'.update b f) := by
  refine ⟨Array.size_modify.trans h.size, fun c => ?_, h.entry, h.exit, h.live⟩
  rw [block?_update, ← h.roles]
  split
  · rw [Option.map_map]
    exact congrArg (fun φ => (g'.block? c).map φ) (funext hf)
  · rfl

theorem invalidate (g : Flowgraph π) : SameRoles g g.invalidate := by
  refine ⟨?_, fun c => ?_, ?_, ?_, ?_⟩
  · rw [Flowgraph.invalidate]
    split
    · rfl
    · exact Array.size_map
  · rw [block?_invalidate]
    split
    · rfl
    · rw [Option.map_map]
      rfl
  all_goals
    rw [Flowgraph.invalidate]
    split <;> rfl

theorem live_iff (h : SameRoles g g') : g'.Live b ↔ g.Live b := by
  have hroles := congrArg Option.isSome (h.roles b)
  rw [Option.isSome_map, Option.isSome_map] at hroles
  rw [Live, Live, ← Option.isSome_iff_exists, ← Option.isSome_iff_exists, hroles]

theorem ids (h : SameRoles g g') : g'.ids = g.ids := by
  rw [Flowgraph.ids, Flowgraph.ids, h.size]
  refine List.filter_congr fun b _ => ?_
  have hroles := congrArg Option.isSome (h.roles b)
  rwa [Option.isSome_map, Option.isSome_map] at hroles

theorem flagged (h : SameRoles g g') (q : Bool × Bool → Bool) {named : Option BlockId}
    (hg : Flagged (fun x => q x.roles) named g) : Flagged (fun x => q x.roles) named g' := by
  have hiff : ∀ (k : Flowgraph π) b, (∃ x, k.block? b = some x ∧ q x.roles = true) ↔
      ∃ r, (k.block? b).map Block.roles = some r ∧ q r = true := by
    intro k b
    cases k.block? b <;> simp
  intro b
  rw [hiff, h.roles, ← hiff]
  exact hg b

end SameRoles

theorem ids_grow : g.grow.ids = g.ids ++ [g.blocks.size] := by
  have hsize : g.grow.blocks.size = g.blocks.size + 1 := Array.size_push ..
  rw [ids, hsize, List.range_succ, List.filter_append, ids]
  congr 1
  · refine List.filter_congr fun b hb => ?_
    rw [block?_grow, if_neg (Nat.ne_of_lt (List.mem_range.mp hb))]
  · rw [List.filter_cons_of_pos, List.filter_nil]
    rw [block?_grow, if_pos rfl]
    rfl

theorem ids_update : (g.update b f).ids = g.ids := by
  have hsize : (g.update b f).blocks.size = g.blocks.size := Array.size_modify
  rw [ids, ids, hsize]
  refine List.filter_congr fun c _ => ?_
  rw [block?_update]
  split
  · rw [Option.isSome_map]
  · rfl

def vacate (g : Flowgraph π) (b : BlockId) : Flowgraph π :=
  { g with blocks := g.blocks.setIfInBounds b none }

def detach (g : Flowgraph π) (b : BlockId) (x : Block π) : Flowgraph π :=
  let g := x.succs.toList.foldl (fun g s => g.update s (·.dropPred b)) (g.vacate b)
  x.preds.toList.foldl (fun g p => g.update p (·.dropSucc b)) g

theorem block?_vacate : (g.vacate b).block? c = if c = b then none else g.block? c := by
  rw [block?, vacate, Array.getElem?_setIfInBounds]
  by_cases hc : c = b
  · rw [if_pos hc.symm, if_pos hc]
    split <;> rfl
  · rw [if_neg (Ne.symm hc), if_neg hc, block?]

theorem mem_ids : b ∈ g.ids ↔ g.Live b := by
  rw [ids, List.mem_filter, List.mem_range, Option.isSome_iff_exists, Live, and_iff_right_iff_imp]
  rintro ⟨x, hx⟩
  rw [block?, Option.join_eq_some_iff] at hx
  exact (Array.getElem?_eq_some_iff.mp hx).1

theorem nodup_ids (g : Flowgraph π) : g.ids.Nodup :=
  List.nodup_range.filter _

theorem ids_vacate : (g.vacate b).ids = g.ids.erase b := by
  have hsize : (g.vacate b).blocks.size = g.blocks.size := Array.size_setIfInBounds ..
  rw [g.nodup_ids.erase_eq_filter, ids, ids, hsize, List.filter_filter]
  refine List.filter_congr fun c _ => ?_
  rw [block?_vacate]
  split <;> simp_all

theorem sameRoles_detach (x : Block π) : SameRoles (g.vacate b) (g.detach b x) := by
  refine List.foldlRecOn _ _ (List.foldlRecOn _ _ (.refl _) ?_) ?_
  · intro k hk s _
    exact hk.update fun _ => rfl
  · intro k hk p _
    exact hk.update fun _ => rfl

theorem detach_eq_of {α : Type} {q : Flowgraph π → α}
    (hq : ∀ (k : Flowgraph π) c (φ : Block π → Block π), q (k.update c φ) = q k) (x : Block π) :
    q (g.detach b x) = q (g.vacate b) := by
  have hfold : ∀ (bs : List BlockId) (φ : Block π → Block π) (k : Flowgraph π),
      q (bs.foldl (fun k c => k.update c φ) k) = q k := by
    intro bs φ k
    induction bs generalizing k with
    | nil => rfl
    | cons c bs ih => exact (ih (k.update c φ)).trans (hq k c φ)
  exact (hfold _ _ _).trans (hfold _ _ _)

theorem live_detach {x : Block π} : (g.detach b x).Live c ↔ c ≠ b ∧ g.Live c := by
  rw [(sameRoles_detach x).live_iff, Live, block?_vacate, Live]
  split <;> simp_all

theorem entry_remove (x : Block π) :
    (g.remove b x).entry = if g.entry = some b then none else g.entry := by
  refine (SameRoles.invalidate _).entry.trans ?_
  change (if (g.detach b x).entry = some b then none else (g.detach b x).entry) = _
  rw [(sameRoles_detach x).entry]
  rfl

theorem exit_remove (x : Block π) :
    (g.remove b x).exit = if g.exit = some b then none else g.exit := by
  refine (SameRoles.invalidate _).exit.trans ?_
  change (if (g.detach b x).exit = some b then none else (g.detach b x).exit) = _
  rw [(sameRoles_detach x).exit]
  rfl

section Flagged

variable {flag : Block π → Bool} {named : Option BlockId} (h : Flagged flag named g)

include h

theorem Flagged.grow (hblank : flag .blank = false) : Flagged flag named g.grow := by
  intro b
  rw [h b, block?_grow]
  split
  · rename_i hb
    constructor
    · rintro ⟨x, hx, -⟩
      exact absurd ⟨x, hb ▸ hx⟩ not_live_size
    · rintro ⟨x, hx, hflag⟩
      cases hx
      rw [hblank] at hflag
      cases hflag
  · rfl

theorem Flagged.vacate (b : BlockId) :
    Flagged flag (if named = some b then none else named) (g.vacate b) := by
  intro c
  rw [block?_vacate]
  by_cases hc : c = b
  · subst hc
    simp
  · rw [if_neg hc, ← h c]
    split
    · rename_i hb
      simp [hb, Ne.symm hc]
    · rfl

theorem Flagged.update (hf : ∀ x, flag (f x) = flag x) : Flagged flag named (g.update b f) := by
  intro c
  rw [h c, block?_update]
  split
  · cases g.block? c <;> simp [hf]
  · rfl

theorem Flagged.mark (hb : g.Live b) (hfree : ∀ c, named = some c → c = b)
    (hf : ∀ x, flag (f x) = true) : Flagged flag (some b) (g.update b f) := by
  intro c
  rw [block?_update]
  split
  · rename_i hbc
    obtain ⟨x, hx⟩ := hb
    refine iff_of_true (hbc ▸ rfl) ⟨f x, ?_, hf x⟩
    rw [← hbc, hx, Option.map_some]
  · rename_i hbc
    refine iff_of_false (fun e => hbc (Option.some.inj e)) fun hc => ?_
    exact hbc (hfree c ((h c).mpr hc)).symm

end Flagged

end Flowgraph

end ControlFlow

import ControlFlow.Flowgraph.Revise
import Mathlib.Logic.Basic

namespace ControlFlow

variable {u v u' v' : BlockId}

def including (R : BlockId → BlockId → Prop) (u v : BlockId) (a c : BlockId) : Prop :=
  R a c ∨ (a = u ∧ c = v)

def excluding (R : BlockId → BlockId → Prop) (u v : BlockId) (a c : BlockId) : Prop :=
  R a c ∧ ¬(a = u ∧ c = v)

theorem including_eq_self {R : BlockId → BlockId → Prop} (h : R u v) : including R u v = R := by
  funext a c
  rw [including, eq_iff_iff]
  refine ⟨?_, .inl⟩
  rintro (hac | ⟨rfl, rfl⟩)
  · exact hac
  · exact h

namespace EdgeIndex

variable {x : EdgeIndex} {l l' : Label}

def Holds (x : EdgeIndex) (u v : BlockId) : Prop :=
  x.contains u v = true

theorem holds_of_label? {x y : EdgeIndex}
    (h : ∀ u v, (x.label? u v).isSome = (y.label? u v).isSome) : x.Holds = y.Holds := by
  funext u v
  rw [Holds, Holds, contains, contains, h]

theorem holds_set {l : Label} : (x.set u v l).Holds = including x.Holds u v := by
  funext a c
  rw [Holds, contains, label?_set, including, Holds, contains, eq_iff_iff]
  split
  · rename_i h
    simp [h.1, h.2]
  · rename_i h
    simp [eq_comm (a := a), eq_comm (a := c), h]

theorem holds_erase : (x.erase u v).Holds = excluding x.Holds u v := by
  funext a c
  rw [Holds, contains, label?_erase, excluding, Holds, contains, eq_iff_iff]
  split
  · rename_i h
    simp [h.1, h.2]
  · rename_i h
    simp [eq_comm (a := a), eq_comm (a := c), h]

theorem holds_setFlow {flow : Flow} : (x.setFlow u v flow).Holds = including x.Holds u v :=
  holds_set

theorem holds_clearKinds : x.clearKinds.Holds = x.Holds :=
  holds_of_label? fun u v => by rw [label?_clearKinds, Option.isSome_map]

theorem holds_reindex {flow : Flow} :
    (Flowgraph.reindex x u v u' v' flow).Holds = including (excluding x.Holds u v) u' v' := by
  rw [Flowgraph.reindex, ← holds_erase]
  by_cases h : (x.erase u v).contains u' v' = true
  · rw [if_pos h, including_eq_self h]
  · rw [if_neg h, holds_setFlow]

theorem holds_eraseAll {ps : List (BlockId × BlockId)} :
    (x.eraseAll ps).1.Holds u v ↔ x.Holds u v ∧ (u, v) ∉ ps := by
  induction ps generalizing x with
  | nil => simp [eraseAll]
  | cons p ps ih =>
      obtain ⟨a, c⟩ := p
      change ((x.erase a c).eraseAll ps).1.Holds u v ↔ _
      rw [ih, holds_erase, excluding, List.mem_cons, not_or, and_assoc, Prod.mk.injEq]

theorem holds_setKind {kind : EdgeClass} (h : x.Holds u v) : (x.setKind u v kind).Holds = x.Holds := by
  rw [setKind, holds_set, including_eq_self h]

theorem holds_foldl_setKind (cs : List Crossing) (h : ∀ c ∈ cs, x.Holds c.source c.target) :
    (cs.foldl (fun x c => x.setKind c.source c.target c.kind) x).Holds = x.Holds := by
  induction cs generalizing x with
  | nil => rfl
  | cons c cs ih =>
      have hx : (x.setKind c.source c.target c.kind).Holds = x.Holds :=
        holds_setKind (h c List.mem_cons_self)
      rw [List.foldl_cons, ih, hx]
      intro d hd
      rw [hx]
      exact h d (List.mem_cons_of_mem _ hd)

theorem kind_foldl_setKind (cs : List Crossing)
    (hl : (cs.foldl (fun x c => x.setKind c.source c.target c.kind) x).label? u v = some l) :
    (∃ k, l.kind = some k ∧ ⟨u, v, k⟩ ∈ cs) ∨
      (∀ k, ⟨u, v, k⟩ ∉ cs) ∧ ∃ l', x.label? u v = some l' ∧ l'.kind = l.kind := by
  induction cs generalizing x with
  | nil => exact .inr ⟨fun _ => List.not_mem_nil, l, hl, rfl⟩
  | cons c cs ih =>
      rcases ih hl with ⟨k, hk, hmem⟩ | ⟨hnone, l', hl', hkind⟩
      · exact .inl ⟨k, hk, List.mem_cons_of_mem _ hmem⟩
      · have hl' : (x.set c.source c.target ⟨_, some c.kind⟩).label? u v = some l' := hl'
        rw [label?_set] at hl'
        split at hl'
        · rename_i hc
          cases hl'
          refine .inl ⟨c.kind, hkind.symm, List.mem_cons.mpr (.inl ?_)⟩
          obtain ⟨a, b, k⟩ := c
          rw [← hc.1, ← hc.2]
        · rename_i hc
          refine .inr ⟨fun k hk => ?_, l', hl', hkind⟩
          rcases List.mem_cons.mp hk with rfl | hk
          · exact hc ⟨rfl, rfl⟩
          · exact hnone k hk

def Unclassed (x : EdgeIndex) : Prop :=
  ∀ u v l, x.label? u v = some l → l.kind = none

namespace Unclassed

variable (h : x.Unclassed)

include h

theorem bind_kind : (x.label? u v).bind (·.kind) = none := by
  cases hl : x.label? u v with
  | none => rfl
  | some l => exact h u v l hl

theorem setFlow (flow : Flow) : (x.setFlow u v flow).Unclassed := by
  intro a c l hl
  rw [EdgeIndex.setFlow, label?_set] at hl
  split at hl
  · cases hl
    exact h.bind_kind
  · exact h a c l hl

theorem erase : (x.erase u v).Unclassed := by
  intro a c l hl
  rw [label?_erase] at hl
  split at hl
  · cases hl
  · exact h a c l hl

theorem reindex (flow : Flow) : (Flowgraph.reindex x u v u' v' flow).Unclassed := by
  rw [Flowgraph.reindex]
  split
  · exact h.erase
  · exact h.erase.setFlow flow

theorem eraseAll (ps : List (BlockId × BlockId)) : (x.eraseAll ps).1.Unclassed := by
  induction ps generalizing x with
  | nil => exact h
  | cons p ps ih => exact ih h.erase

end Unclassed

theorem Unclassed.clearKinds_eq (h : x.Unclassed) : x.clearKinds = x := by
  refine EdgeIndex.ext fun u v => ?_
  rw [label?_clearKinds]
  cases hl : x.label? u v with
  | none => rfl
  | some l =>
      obtain ⟨flow, kind⟩ := l
      have hkind : kind = none := h u v ⟨flow, kind⟩ hl
      rw [Option.map_some, hkind]

theorem clearKinds_setKind {kind : EdgeClass} (h : x.Holds u v) :
    (x.setKind u v kind).clearKinds = x.clearKinds := by
  refine EdgeIndex.ext fun a c => ?_
  rw [label?_clearKinds, label?_clearKinds, setKind, label?_set]
  split
  · rename_i hac
    obtain ⟨l, hl⟩ := Option.isSome_iff_exists.mp h
    rw [← hac.1, ← hac.2, hl]
    rfl
  · rfl

theorem clearKinds_foldl_setKind (cs : List Crossing) (h : ∀ c ∈ cs, x.Holds c.source c.target) :
    (cs.foldl (fun x c => x.setKind c.source c.target c.kind) x).clearKinds = x.clearKinds := by
  induction cs generalizing x with
  | nil => rfl
  | cons c cs ih =>
      obtain ⟨hc, hcs⟩ := List.forall_mem_cons.mp h
      rw [List.foldl_cons, ih fun d hd => ?_, clearKinds_setKind hc]
      rw [holds_setKind hc]
      exact hcs d hd

theorem unclassed_clearKinds : x.clearKinds.Unclassed := by
  intro u v l hl
  rw [label?_clearKinds, Option.map_eq_some_iff] at hl
  obtain ⟨l', -, rfl⟩ := hl
  rfl

end EdgeIndex

end ControlFlow

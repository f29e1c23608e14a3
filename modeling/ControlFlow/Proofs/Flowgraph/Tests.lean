import ControlFlow.Proofs.Flowgraph.Bypass

namespace ControlFlow

open Flowgraph

variable {π : Type} {b c old new s t u v : BlockId} {g : Flowgraph π} {x : Block π}
  {f : Block π → Block π}

namespace Block

def Forks (x : Block π) : Prop :=
  ∃ t f, x.onTrue = some t ∧ x.onFalse = some f ∧
    t ≠ f ∧ x.succs.size = 2 ∧ t ∈ x.succs ∧ f ∈ x.succs

theorem testViolation?_eq_none_iff : testViolation? b x = none ↔ x.Forks := by
  rw [testViolation?, Forks]
  cases x.onTrue <;> cases x.onFalse <;> simp

theorem Forks.arm_unique {a arm : Arm} (h : x.Forks) (ha : x.target? a = some c)
    (harm : x.target? arm = some c) : a = arm := by
  obtain ⟨t, f, ht, hf, hne, -⟩ := h
  cases a <;> cases arm <;> simp_all [target?]

theorem Forks.redirectSucc (h : x.Forks) (hnodup : x.succs.toList.Nodup) (hold : old ∈ x.succs)
    (hnew : new ∉ x.succs) : (x.redirectSucc old new).Forks := by
  obtain ⟨t, f, ht, hf, hne, hsize, htmem, hfmem⟩ := h
  have hold' : old ∈ x.succs.toList := Array.mem_toList_iff.mpr hold
  have hne' : old ≠ new := fun e => hnew (e ▸ hold)
  have hmem : ∀ c, c ∈ redirect old new x.succs ↔ (c ∈ x.succs ∧ c ≠ old) ∨ c = new := by
    intro c
    rw [← Array.mem_toList_iff, mem_redirect hnodup hold' hne', Array.mem_toList_iff]
  have hsize' : (redirect old new x.succs).size = 2 := by
    rw [← Array.length_toList, toList_redirect, if_neg (by simpa using hnew), List.length_replace,
      Array.length_toList, hsize]
  have hmoved : ∀ c ∈ x.succs, (if c = old then new else c) ∈ redirect old new x.succs := by
    intro c hc
    rw [hmem]
    by_cases hco : c = old
    · simp [hco]
    · simp [hco, hc]
  have hinj : (if t = old then new else t) ≠ if f = old then new else f := by
    intro e
    by_cases hto : t = old <;> by_cases hfo : f = old <;> simp_all
  refine ⟨_, _, ?_, ?_, hinj, hsize', hmoved t htmem, hmoved f hfmem⟩
  · simp only [Block.redirectSucc, ht, Option.some.injEq]
    split <;> rfl
  · simp only [Block.redirectSucc, hf, Option.some.injEq]
    split <;> rfl

end Block

namespace Flowgraph

def Forked (g : Flowgraph π) : Prop :=
  ∀ b x, g.block? b = some x → x.isTest = true → x.Forks

theorem firstViolation?_eq_none_iff : g.firstViolation? = none ↔ g.Forked := by
  rw [firstViolation?, List.findSome?_eq_none_iff]
  constructor
  · intro h b x hx htest
    have hb := h b (mem_ids.mpr ⟨x, hx⟩)
    rw [hx, Option.bind_some, if_pos htest] at hb
    exact Block.testViolation?_eq_none_iff.mp hb
  · intro h b hb
    obtain ⟨x, hx⟩ := mem_ids.mp hb
    rw [hx, Option.bind_some]
    split
    · rename_i htest
      exact Block.testViolation?_eq_none_iff.mpr (h b x hx htest)
    · rfl

namespace Forked

variable (h : g.Forked)

include h

theorem update (hf : ∀ x, g.block? b = some x → (f x).isTest = true → (f x).Forks) :
    (g.update b f).Forked := by
  intro c x hx
  rw [block?_update] at hx
  split at hx
  · rename_i hbc
    obtain ⟨y, hy, rfl⟩ := Option.map_eq_some_iff.mp hx
    exact hf y (hbc ▸ hy)
  · exact h c x hx

theorem update_of_eq (htest : ∀ x, (f x).isTest = x.isTest)
    (hforks : ∀ x, (f x).Forks ↔ x.Forks) : (g.update b f).Forked := by
  apply h.update
  intro x hx hfx
  rw [hforks]
  exact h b x hx (htest x ▸ hfx)

theorem invalidate : g.invalidate.Forked := by
  intro b x hx
  rw [block?_invalidate] at hx
  split at hx
  · exact h b x hx
  · obtain ⟨y, hy, rfl⟩ := Option.map_eq_some_iff.mp hx
    exact h b y hy

theorem redirectSuccessor (hcons : Consistent g) (hold : old ∈ g.succs b)
    (hapart : g.Apart b new) : (g.redirectSuccessor b old new).Forked := by
  have hturned : (g.update b (·.redirectSucc old new)).Forked := by
    apply h.update
    intro x hx htest
    have hnew : new ∉ x.succs := by
      have hfar : new ∉ g.succs b := hapart (by rw [isTest, hx]; exact htest)
      simpa [succs, hx] using hfar
    have hold : old ∈ x.succs := by simpa [succs, hx] using hold
    exact (h b x hx htest).redirectSucc (hcons.out b x hx).nodup hold hnew
  have hdropped : ((g.update b (·.redirectSucc old new)).update old (·.dropPred b)).Forked := by
    apply hturned.update_of_eq
    · exact fun _ => rfl
    · exact fun _ => Iff.rfl
  have hadded : (((g.update b (·.redirectSucc old new)).update old (·.dropPred b)).update new
      (·.addPred b)).Forked := by
    apply hdropped.update_of_eq
    · intro x
      rw [Block.addPred]
      split <;> rfl
    · intro x
      rw [Block.addPred]
      split <;> rfl
  exact Forked.invalidate fun c x hx => hadded c x hx

theorem remove (hx : g.block? b = some x) (hpreds : g.preds b = []) : (g.remove b x).Forked := by
  have hnone : x.preds.toList = [] := by simpa [preds, hx] using hpreds
  have hvacant : (g.vacate b).Forked := by
    intro c y hy
    rw [block?_vacate] at hy
    split at hy
    · cases hy
    · exact h c y hy
  have hdetached : (g.detach b x).Forked := by
    rw [detach, hnone, List.foldl_nil]
    refine List.foldlRecOn _ _ hvacant fun k hk s _ => ?_
    apply update_of_eq hk
    · exact fun _ => rfl
    · exact fun _ => Iff.rfl
  exact Forked.invalidate fun c y hy => hdetached c y hy

theorem record (r : Results) : (g.record r).Forked := by
  intro b x hx
  rw [block?_record, Option.map_eq_some_iff] at hx
  obtain ⟨y, hy, rfl⟩ := hx
  exact h b y hy

end Forked

end Flowgraph

namespace Edit

theorem keeps_bypass_forked (b : BlockId) :
    Keeps (fun g : Flowgraph π => g.Forked ∧ Consistent g) (bypass b) := by
  apply keeps_bypass_apart
  · exact fun k p b s hcons hold _ _ hapart h => h.redirectSuccessor hcons hold hapart
  · exact fun k b y _ hy hpreds h => h.remove hy hpreds

theorem forked_of_analyze {h : Flowgraph π} (hg : Consistent g)
    (hok : analyze.exec g = (.ok (), h)) : h.Forked := by
  obtain ⟨entry, exit, k, k', r, -, -, hprune, hvalid, hbypass, -, rfl⟩ := analyze_ok hg hok
  have hk : Consistent k := (Keeps.runIf (keeps_prune Consistent.steady)).of_exec hg hprune
  -- the tests are checked before the bypasses, which keep them
  have hk' : Forked k' ∧ Consistent k' :=
    (Keeps.runIf (keeps_bypassAll_of keeps_bypass_forked)).of_exec
      ⟨firstViolation?_eq_none_iff.mp hvalid, hk⟩ hbypass
  exact hk'.1.invalidate.record r

end Edit

end ControlFlow

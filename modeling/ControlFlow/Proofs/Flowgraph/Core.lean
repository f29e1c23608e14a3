import ControlFlow.Proofs.Flowgraph.Consistent

namespace ControlFlow

variable {π : Type} {b c old new : BlockId} {g g' : Flowgraph π} {f : Block π → Block π}

def Block.core (x : Block π) : Block π :=
  { x with preds := #[], succs := #[], onTrue := none, onFalse := none, marks := none }

theorem Block.core_addPred (x : Block π) (b : BlockId) : (x.addPred b).core = x.core := by
  rw [addPred]
  split <;> rfl

namespace Flowgraph

def core? (g : Flowgraph π) (b : BlockId) : Option (Block π) :=
  (g.block? b).map Block.core

theorem core?_update (hf : ∀ x, (f x).core = x.core) : (g.update b f).core? c = g.core? c := by
  rw [core?, core?, block?_update]
  split
  · rw [Option.map_map]
    exact congrArg (fun φ => (g.block? c).map φ) (funext hf)
  · rfl

theorem core?_invalidate : g.invalidate.core? c = g.core? c := by
  rw [core?, core?, block?_invalidate]
  split
  · rfl
  · rw [Option.map_map]
    rfl

theorem core?_redirectSuccessor : (g.redirectSuccessor b old new).core? c = g.core? c := by
  refine core?_invalidate.trans (((core?_update ?_).trans (core?_update ?_)).trans
    (core?_update ?_))
  · exact fun x => x.core_addPred b
  · exact fun _ => rfl
  · exact fun _ => rfl

theorem core?_foldl_update (hf : ∀ x, (f x).core = x.core) (bs : List BlockId) :
    (bs.foldl (fun g b => g.update b f) g).core? c = g.core? c := by
  induction bs generalizing g with
  | nil => rfl
  | cons b bs ih => exact ih.trans (core?_update hf)

theorem core?_remove (x : Block π) :
    (g.remove b x).core? c = if c = b then none else g.core? c := by
  have hdetach : (g.remove b x).core? c = (g.detach b x).core? c := core?_invalidate
  have hdropPred : ∀ y : Block π, (y.dropPred b).core = y.core := fun _ => rfl
  have hdropSucc : ∀ y : Block π, (y.dropSucc b).core = y.core := fun _ => rfl
  rw [hdetach, detach, core?_foldl_update hdropSucc, core?_foldl_update hdropPred, core?,
    block?_vacate]
  split <;> rfl

theorem live_iff_isSome_core? : g.Live b ↔ (g.core? b).isSome = true := by
  rw [core?, Option.isSome_map, Option.isSome_iff_exists, Live]

def isTest (g : Flowgraph π) (b : BlockId) : Bool :=
  ((g.block? b).map (·.isTest)).getD false

theorem isTest_eq_true_iff : g.isTest b = true ↔ ∃ x, g.block? b = some x ∧ x.isTest = true := by
  rw [isTest]
  cases g.block? b <;> simp

theorem isTest_of_not_live (h : ¬g.Live b) : g.isTest b = false := by
  rw [Bool.eq_false_iff]
  intro htest
  obtain ⟨x, hx, -⟩ := isTest_eq_true_iff.mp htest
  exact h ⟨x, hx⟩

theorem isTest_of_core?_eq (h : g'.core? b = g.core? b) : g'.isTest b = g.isTest b := by
  have hmap : ∀ k : Flowgraph π, k.isTest b = ((k.core? b).map (·.isTest)).getD false := by
    intro k
    rw [isTest, core?, Option.map_map]
    rfl
  rw [hmap, hmap, h]

def Idle (g : Flowgraph π) (b : BlockId) : Prop :=
  ∃ x, g.block? b = some x ∧ x.isEntry = false ∧ x.isExit = false ∧ x.isEmpty = true

theorem idle_iff_of_core?_eq (h : g'.core? b = g.core? b) : g'.Idle b ↔ g.Idle b := by
  have hcore : ∀ k : Flowgraph π, k.Idle b ↔
      ∃ y, k.core? b = some y ∧ y.isEntry = false ∧ y.isExit = false ∧ y.isEmpty = true := by
    intro k
    rw [Idle, core?]
    cases k.block? b with
    | none => simp
    | some x => simp [Block.core, Block.isEmpty]
  rw [hcore, hcore, h]

theorem Idle.ne_entry (h : g.Idle b) (hg : Consistent g) : g.entry ≠ some b := by
  obtain ⟨x, hx, hentry, -, -⟩ := h
  intro he
  obtain ⟨y, hy, hflag⟩ := (hg.entry b).mp he
  cases hx.symm.trans hy
  simp [hentry] at hflag

theorem Idle.ne_exit (h : g.Idle b) (hg : Consistent g) : g.exit ≠ some b := by
  obtain ⟨x, hx, -, hexit, -⟩ := h
  intro he
  obtain ⟨y, hy, hflag⟩ := (hg.exit b).mp he
  cases hx.symm.trans hy
  simp [hexit] at hflag

end Flowgraph

end ControlFlow

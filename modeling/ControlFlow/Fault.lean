import ControlFlow.BlockId

namespace ControlFlow

inductive Violation where
  | sentinelExists (block : BlockId)
  | entryTaken (current block : BlockId)
  | exitTaken (current block : BlockId)
  | armMissing (block : BlockId)
  | armsNotDistinct (block : BlockId) (succs : List BlockId) (onTrue onFalse : BlockId)
  | rootOutsideGraph (root : BlockId)
  | numberingOutgrown (covered bound : Nat)
  | semidominatorNotAbove (block : BlockId) (number semi : Nat)
  | noProcessedPredecessor (block : BlockId)
  | shapesDiffer (root : BlockId) (size : Nat) (otherRoot : BlockId) (otherSize : Nat)
  | idomsDiffer (block : BlockId) (idom other : Option BlockId)
  | rootOutsideIds (root : BlockId) (bound : Nat)
  | rootHasIdom (root idom : BlockId)
  | idomOutsideIds (block idom : BlockId) (bound : Nat)
  | idomCycle (reached members : Nat) (root : BlockId)
  deriving DecidableEq, Repr

namespace Violation

def message : Violation → String
  | sentinelExists b => "graph already has sentinel block " ++ b.text
  | entryTaken c b => c.text ++ " is already the entry; cannot also mark " ++ b.text
  | exitTaken c b => c.text ++ " is already the exit; cannot also mark " ++ b.text
  | armMissing b => "test block " ++ b.text ++ " needs both a true and a false target"
  | armsNotDistinct b succs t f =>
      "test block " ++ b.text ++ " must branch to two distinct successors, has " ++
        BlockId.taggedList succs ++ " (true " ++ t.text ++ ", false " ++ f.text ++ ")"
  | rootOutsideGraph r => "root " ++ r.text ++ " is outside the graph"
  | numberingOutgrown n m =>
      "numbering covers " ++ n.repr ++ " block ids but the graph has " ++ m.repr ++
        "; renumber after structural edits"
  | semidominatorNotAbove b i s =>
      "semi-dominator of " ++ b.text ++ " (pre " ++ i.repr ++ ") is " ++ s.repr ++
        ", not a proper ancestor"
  | noProcessedPredecessor b => b.text ++ " is reachable but has no processed predecessor"
  | shapesDiffer r n r' n' =>
      "dominator trees differ in shape: root " ++ r.text ++ " with " ++ n.repr ++
        " blocks vs root " ++ r'.text ++ " with " ++ n'.repr ++ " blocks"
  | idomsDiffer b d d' =>
      "idom(" ++ b.text ++ ") is " ++ BlockId.taggedOption d ++
        " but the iterative algorithm found " ++ BlockId.taggedOption d'
  | rootOutsideIds r n => "root " ++ r.text ++ " outside id space " ++ n.repr
  | rootHasIdom r d => "root " ++ r.text ++ " has idom " ++ d.text
  | idomOutsideIds b d n =>
      "idom of " ++ b.text ++ " is " ++ d.text ++ ", outside id space " ++ n.repr
  | idomCycle k n r =>
      "idom links contain a cycle: " ++ k.repr ++ " of " ++ n.repr ++ " blocks hang off root " ++
        r.text

def report (file : String) (line : Nat) (message : String) : String :=
  "Invariant violated - " ++ file ++ ":" ++ line.repr ++ ": " ++ message

end Violation

inductive Fault where
  | violation (v : Violation)
  | unknownBlock (block : BlockId)
  | missingEntry
  | missingExit
  | notAnalyzed
  | outsideTree (block root : BlockId)
  | outsideSet (block : BlockId) (capacity : Nat)
  | staleDominance
  | staleOrder
  /-- A table has no entry where it was read, as where a numbering met a successor at or above the id
  bound. -/
  | indexOutOfBounds
  /-- A fixpoint was not reached in as many rounds as there are tables. -/
  | unsettled
  deriving DecidableEq, Repr

namespace Fault

def message : Fault → String
  | violation v => v.message
  | unknownBlock b => "Block " ++ b.text ++ " does not exist in the graph"
  | missingEntry => "The graph has no entry block"
  | missingExit => "The graph has no exit block"
  | notAnalyzed => "The graph has been modified since the last finalize"
  | outsideTree b r => "block " ++ b.text ++ " is not part of the dominator tree rooted at " ++ r.text
  | outsideSet b n => "block " ++ b.text ++ " out of bounds for set of capacity " ++ n.repr
  | staleDominance => "dominance queried on a graph modified since the last finalize"
  | staleOrder => "reverse post-order requested on a graph modified since the last finalize"
  | indexOutOfBounds => "index out of bounds"
  | unsettled => "the dominator table never settles"

end Fault

theorem bind_eq_ok_iff {α β : Type} {x : Except Fault α} {f : α → Except Fault β} {y : β} :
    x >>= f = .ok y ↔ ∃ a, x = .ok a ∧ f a = .ok y := by
  cases x with
  | error e => exact iff_of_false nofun nofun
  | ok a => exact ⟨fun h => ⟨a, rfl, h⟩, fun ⟨_, ha, h⟩ => by cases ha; exact h⟩

theorem forM_eq_ok {α : Type} {f : α → Except Fault Unit} {as : List α}
    (h : ∀ a ∈ as, f a = .ok ()) : as.forM f = .ok () := by
  induction as with
  | nil => rfl
  | cons a as ih =>
      obtain ⟨ha, has⟩ := List.forall_mem_cons.mp h
      change (f a >>= fun _ => as.forM f) = .ok ()
      rw [ha]
      exact ih has

theorem filterM_eq_ok {α : Type} {p : α → Except Fault Bool} {q : α → Bool} {as : List α}
    (h : ∀ a ∈ as, p a = .ok (q a)) : as.filterM p = .ok (as.filter q) := by
  have haux : ∀ kept, as.filterAuxM p kept = .ok ((as.filter q).reverse ++ kept) := by
    induction as with
    | nil => exact fun _ => rfl
    | cons a as ih =>
        obtain ⟨ha, has⟩ := List.forall_mem_cons.mp h
        intro kept
        rw [List.filterAuxM, ha]
        refine (ih has _).trans ?_
        cases hq : q a <;> simp [hq]
  rw [List.filterM, haux]
  simp [bind, Except.bind, pure, Except.pure]

end ControlFlow

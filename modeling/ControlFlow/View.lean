import ControlFlow.BlockId

namespace ControlFlow

structure View where
  bound : Nat
  inUse : BlockId → Bool
  succs : BlockId → List BlockId
  preds : BlockId → List BlockId

namespace View

def ids (g : View) : List BlockId :=
  (List.range g.bound).filter g.inUse

def reversed (g : View) : View :=
  { g with succs := g.preds, preds := g.succs }

@[simp] theorem reversed_reversed (g : View) : g.reversed.reversed = g := rfl

def lists (n : Nat) (pairs : List (BlockId × BlockId)) : Array (List BlockId) :=
  pairs.foldr (fun p t => t.modify p.1 (p.2 :: ·)) (Array.replicate n [])

/-- The graph on the ids below `n` with the given edges for the successors and, read from the
other end, for the predecessors. The two lists of edges may disagree. -/
def ofEdges (n : Nat) (edges predEdges : List (BlockId × BlockId)) : View :=
  let out := lists n edges
  let into := lists n (predEdges.map Prod.swap)
  { bound := n
    inUse := fun b => decide (b < n)
    succs := fun b => out[b]?.getD []
    preds := fun b => into[b]?.getD [] }

end View

structure Rooted extends View where
  root : BlockId

namespace Rooted

def reversed (g : View) (root : BlockId) : Rooted :=
  { g.reversed with root }

end Rooted

def View.rootedAt (g : View) (root : BlockId) : Rooted :=
  { g with root }

end ControlFlow

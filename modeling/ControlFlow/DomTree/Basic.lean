import ControlFlow.Fault

/-!
Dominator trees and the questions they answer about one or two blocks. A tree of `n` blocks gives
each an interval of its entry and exit times, so one block is above another exactly when its
interval encloses the other's. Every checked query refuses blocks outside the tree.
-/

namespace ControlFlow

structure DomTree where
  root : BlockId
  idoms : Array (Option BlockId)
  semis : Array (Option BlockId)
  kids : Array (List BlockId)
  spans : Array (Option (Nat × Nat))
  depths : Array Nat
  frontiers : Array (List BlockId)
  preorder : Array BlockId
  deriving DecidableEq

namespace DomTree

def size (t : DomTree) : Nat :=
  t.preorder.size

def isEmpty (t : DomTree) : Bool :=
  t.preorder.isEmpty

def bound (t : DomTree) : Nat :=
  t.idoms.size

def span? (t : DomTree) (b : BlockId) : Option (Nat × Nat) :=
  t.spans[b]?.join

def contains (t : DomTree) (b : BlockId) : Bool :=
  (t.span? b).isSome

def idom? (t : DomTree) (b : BlockId) : Option BlockId :=
  t.idoms[b]?.join

def semi? (t : DomTree) (b : BlockId) : Option BlockId :=
  t.semis[b]?.join

def kidsOf (t : DomTree) (b : BlockId) : List BlockId :=
  t.kids[b]?.getD []

def depthOf (t : DomTree) (b : BlockId) : Nat :=
  t.depths[b]?.getD 0

def frontierOf (t : DomTree) (b : BlockId) : List BlockId :=
  t.frontiers[b]?.getD []

def above (t : DomTree) (a b : BlockId) : Bool :=
  match t.span? a, t.span? b with
  | some (i, j), some (k, l) => decide (i < k) && decide (l < j)
  | _, _ => false

def climb (t : DomTree) : Nat → BlockId → List BlockId
  | 0, b => [b]
  | d + 1, b =>
      match t.idom? b with
      | none => [b]
      | some p => b :: t.climb d p

def chain (t : DomTree) (b : BlockId) : List BlockId :=
  t.climb (t.depthOf b) b

def subtree (t : DomTree) : Nat → BlockId → List BlockId
  | 0, b => [b]
  | h + 1, b => b :: (t.kidsOf b).flatMap (t.subtree h)

def require (t : DomTree) (b : BlockId) : Except Fault Unit :=
  if t.contains b then .ok () else .error (.outsideTree b t.root)

def idom (t : DomTree) (b : BlockId) : Except Fault (Option BlockId) := do
  t.require b
  return t.idom? b

def children (t : DomTree) (b : BlockId) : Except Fault (List BlockId) := do
  t.require b
  return t.kidsOf b

def depth (t : DomTree) (b : BlockId) : Except Fault Nat := do
  t.require b
  return t.depthOf b

def strictlyDominates (t : DomTree) (a b : BlockId) : Except Fault Bool := do
  t.require a
  t.require b
  return t.above a b

def dominates (t : DomTree) (a b : BlockId) : Except Fault Bool :=
  if a = b then do
    t.require a
    return true
  else t.strictlyDominates a b

def dominators (t : DomTree) (b : BlockId) : Except Fault (List BlockId) := do
  t.require b
  return t.chain b

def strictDominators (t : DomTree) (b : BlockId) : Except Fault (List BlockId) := do
  t.require b
  return (t.chain b).drop 1

/-- The deepest block that dominates both. Of two blocks outside the tree the second is refused. -/
def commonDominator (t : DomTree) (a b : BlockId) : Except Fault BlockId := do
  t.require b
  t.require a
  return ((t.chain a).find? fun c => c == b || t.above c b).getD t.root

def dominated (t : DomTree) (b : BlockId) : Except Fault (List BlockId) := do
  t.require b
  return t.subtree t.size b

def strictlyDominated (t : DomTree) (b : BlockId) : Except Fault (List BlockId) := do
  t.require b
  return (t.subtree t.size b).drop 1

end DomTree

end ControlFlow

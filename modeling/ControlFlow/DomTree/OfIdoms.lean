import ControlFlow.DomTree.Frontier
import ControlFlow.Numbering

namespace ControlFlow.DomTree

def stray? (idoms : Array (Option BlockId)) : Option (BlockId × BlockId) :=
  (List.range idoms.size).findSome? fun b =>
    idoms[b]?.join.bind fun p => if idoms.size ≤ p then some (b, p) else none

def childTable (idoms : Array (Option BlockId)) : Array (List BlockId) :=
  (List.range idoms.size).foldr
    (fun b t => match idoms[b]?.join with
      | some p => t.modify p (b :: ·)
      | none => t)
    (Array.replicate idoms.size [])

def asView (idoms : Array (Option BlockId)) (kids : Array (List BlockId)) : View where
  bound := idoms.size
  inUse b := decide (b < idoms.size)
  succs b := kids[b]?.getD []
  preds b := idoms[b]?.join.toList

def depthTable (idoms : Array (Option BlockId)) (order : Array BlockId) : Array Nat :=
  order.foldl
    (fun t b => match idoms[b]?.join with
      | some p => t.setIfInBounds b (t[p]?.getD 0 + 1)
      | none => t)
    (Array.replicate idoms.size 0)

def spanTable (N : Numbering) : Array (Option (Nat × Nat)) :=
  (Array.range N.bound).map fun b =>
    match N.pre? b, N.post? b with
    | some i, some j => some (i, j)
    | _, _ => none

/-- Refuses tables in which the root has a parent, a parent is no id, or some block does not hang
off the root. The predecessors of `g` decide the frontiers. -/
def ofIdoms (g : View) (root : BlockId) (idoms semis : Array (Option BlockId)) :
    Except Fault DomTree := do
  if idoms.size ≤ root then
    throw (.violation (.rootOutsideIds root idoms.size))
  if let some p := idoms[root]?.join then
    throw (.violation (.rootHasIdom root p))
  if let some (b, p) := stray? idoms then
    throw (.violation (.idomOutsideIds b p idoms.size))
  let kids := childTable idoms
  let N ← (asView idoms kids).number root
  let members := idoms.countP (·.isSome) + 1
  if N.size ≠ members then
    throw (.violation (.idomCycle N.size members root))
  let t : DomTree :=
    { root, idoms, semis, kids
      spans := spanTable N
      depths := depthTable idoms N.preorder
      frontiers := #[]
      preorder := N.preorder }
  return { t with frontiers := t.frontierTable g }

end ControlFlow.DomTree

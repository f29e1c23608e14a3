import ControlFlow.DomTree.OfIdoms
import ControlFlow.Fixpoint
import ControlFlow.Semidominator.Sweep

namespace ControlFlow

namespace Numbering

def rank? (N : Numbering) (b : BlockId) : Option (Fin N.preorder.size) :=
  (N.pre? b).bind fun i => if h : i < N.preorder.size then some ⟨i, h⟩ else none

def rrank? (N : Numbering) (b : BlockId) : Option (Fin N.postorder.size) :=
  (N.rpost? b).bind fun i => if h : i < N.postorder.size then some ⟨i, h⟩ else none

def block (N : Numbering) (i : Fin N.preorder.size) : BlockId :=
  N.preorder[i]

def requireFits (N : Numbering) (g : View) : Except Fault Unit :=
  if N.isEmpty then .error (.violation (.rootOutsideGraph N.root))
  else if N.bound = g.bound then .ok ()
  else .error (.violation (.numberingOutgrown N.bound g.bound))

def spanning (N : Numbering) (g : View) : Spanning N.preorder.size where
  block := ⟨N.preorder, rfl⟩
  parent := .ofFn fun i => ((N.parent? (N.block i)).bind N.rank?).getD ⟨0, i.pos⟩
  preds := .ofFn fun i => (g.preds (N.block i)).filterMap N.rank?

def tableOf (N : Numbering) (v : Vector (Fin N.preorder.size) N.preorder.size) :
    Array (Option BlockId) :=
  (Array.range N.bound).map fun b =>
    (N.rank? b).bind fun i => if i.val = 0 then none else some (N.block (v.get i))

def rblock (N : Numbering) (r : Fin N.postorder.size) : BlockId :=
  N.postorder[r.rev]

def rpreds (N : Numbering) (g : View) :
    Vector (List (Fin N.postorder.size)) N.postorder.size :=
  .ofFn fun r => (g.preds (N.rblock r)).filterMap N.rrank?

end Numbering

namespace View

def dominators (g : View) (N : Numbering) : Except Fault DomTree := do
  N.requireFits g
  if h : 0 < N.preorder.size then
    let (idom, semi) ← (N.spanning g).solve h
    DomTree.ofIdoms g N.root (N.tableOf idom) (N.tableOf semi)
  else throw (.violation (.rootOutsideGraph N.root))

def fixpointDominators (g : View) (N : Numbering) : Except Fault DomTree := do
  N.requireFits g
  let t ← DomTable.solve (N.rpreds g)
  if let some r := ((List.finRange N.postorder.size).drop 1).find? fun r => (t.get r).isNone then
    throw (.violation (.noProcessedPredecessor (N.rblock r)))
  let idoms := (Array.range N.bound).map fun b =>
    (N.rrank? b).bind fun r => if r.val = 0 then none else (t.get r).map N.rblock
  DomTree.ofIdoms g N.root idoms #[]

def postDominators (g : View) (exit : BlockId) : Except Fault DomTree := do
  let N ← g.reversed.number exit
  g.reversed.dominators N

end View

def Rooted.dominators (g : Rooted) : Except Fault DomTree := do
  let N ← g.number
  g.toView.dominators N

namespace DomTree

def requireIdom (t u : DomTree) (b : BlockId) : Except Fault Unit := do
  let d ← t.idom b
  if u.contains b then
    let d' ← u.idom b
    if d = d' then return () else throw (.violation (.idomsDiffer b d d'))
  else throw (.violation (.idomsDiffer b d none))

def requireSame (t u : DomTree) : Except Fault Unit :=
  if t.root = u.root ∧ t.size = u.size then t.preorder.toList.forM (t.requireIdom u)
  else .error (.violation (.shapesDiffer t.root t.size u.root u.size))

end DomTree

end ControlFlow

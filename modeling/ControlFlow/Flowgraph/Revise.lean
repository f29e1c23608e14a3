import ControlFlow.Flowgraph.Build
import ControlFlow.Walk

namespace ControlFlow

/-- Where an empty block that can be spared leads: not the entry or the exit, something leads to it,
and it has one successor other than itself. -/
def Block.bypassTarget? {π : Type} (x : Block π) (b : BlockId) : Option BlockId :=
  if x.isEntry || x.isExit || !x.isEmpty || x.preds.isEmpty then none
  else
    match x.succs.toList with
    | [s] => if s = b then none else some s
    | _ => none

namespace Flowgraph

variable {π : Type}

def flowOf (g : Flowgraph π) (u v : BlockId) : Flow :=
  ((g.edges.label? u v).map (·.flow)).getD .unconditional

/-- Moves the index entry of an edge. An entry already at the new place stays as it is. -/
def reindex (x : EdgeIndex) (u v u' v' : BlockId) (flow : Flow) : EdgeIndex :=
  let y := x.erase u v
  if y.contains u' v' then y else y.setFlow u' v' flow

def redirectSuccessor (g : Flowgraph π) (b old new : BlockId) : Flowgraph π :=
  let edges := reindex g.edges b old b new (g.flowOf b old)
  let g := g.update b (·.redirectSucc old new)
  let g := g.update old (·.dropPred b)
  let g := g.update new (·.addPred b)
  invalidate { g with edges }

def adopt (b : BlockId) (flow : Flow) (x : Block π) : Block π :=
  match flow with
  | .unconditional => x.addSucc b
  | .onTrue => (x.addSucc b).aim .onTrue b
  | .onFalse => (x.addSucc b).aim .onFalse b

def redirectPredecessor (g : Flowgraph π) (b old new : BlockId) : Flowgraph π :=
  let flow := g.flowOf old b
  let edges := reindex g.edges old b new b flow
  let g := g.update b (·.redirectPred old new)
  let g := g.update old (·.dropSucc b)
  let g := g.update new (adopt b flow)
  invalidate { g with edges }

def remove (g : Flowgraph π) (b : BlockId) (x : Block π) : Flowgraph π :=
  let edges := (g.edges.eraseBlock b x.succs.toList x.preds.toList).1
  let g := { g with blocks := g.blocks.setIfInBounds b none }
  let g := x.succs.toList.foldl (fun g s => g.update s (·.dropPred b)) g
  let g := x.preds.toList.foldl (fun g p => g.update p (·.dropSucc b)) g
  invalidate
    { g with
      edges
      entry := if g.entry = some b then none else g.entry
      exit := if g.exit = some b then none else g.exit
      live := g.live - 1 }

def removeEdge (g : Flowgraph π) (u v : BlockId) : Flowgraph π :=
  let g := g.update u (·.dropSucc v)
  let g := g.update v (·.dropPred u)
  invalidate { g with edges := g.edges.erase u v }

def doomed (g : Flowgraph π) (entry : BlockId) : Except Fault (List BlockId) := do
  let kept ← g.view.reachable entry
  g.ids.filterM fun b => return !(← kept.contains b) && some b != g.exit

end Flowgraph

namespace Edit

variable {π : Type}

/-- Turns the edge from `b` to `old`, if there is one, into one to `new`. `new` is checked first, and
`b` only where `old` and `new` differ. -/
def redirectSuccessor (b old new : BlockId) : Edit π Unit := do
  requireAll [new]
  if old = new then return ()
  else do
    let x ← requireLive b
    if x.succs.contains old then modify (·.redirectSuccessor b old new) else return ()

def redirectPredecessor (b old new : BlockId) : Edit π Unit := do
  requireAll [new]
  if old = new then return ()
  else do
    let x ← requireLive b
    if x.preds.contains old then modify (·.redirectPredecessor b old new) else return ()

def removeBlock (b : BlockId) : Edit π Unit := do
  let x ← requireLive b
  modify (·.remove b x)

def removeEdge (u v : BlockId) : Edit π (Option Edge) :=
  modifyGet fun g => if v ∈ g.succs u then (g.edges.edge? u v, g.removeEdge u v) else (none, g)

def isTestInto (s p : BlockId) : Edit π Bool := do
  let y ← requireLive p
  return y.isTest && y.succs.contains s

/-- Leads the predecessors of an empty block past it to its one successor and removes it, unless
that would merge the arms of a test. -/
def bypass (b : BlockId) : Edit π Bool := do
  let x ← requireLive b
  match x.bypassTarget? b with
  | none => return false
  | some s => do
      let sources := x.preds.toList
      if ← sources.anyM (isTestInto s) then return false
      else do
        sources.forM fun p => redirectSuccessor p b s
        removeBlock b
        return true

def bypassAll : Edit π Nat := do
  let candidates := (← get).ids
  candidates.foldlM
    (fun n b => do
      let gone ← bypass b
      return if gone then n + 1 else n)
    0

def prune : Edit π Nat := do
  let g ← get
  match g.entry with
  | none => throw .missingEntry
  | some entry => do
      let doomed ← ofExcept (g.doomed entry)
      doomed.forM removeBlock
      return doomed.length

end Edit

end ControlFlow

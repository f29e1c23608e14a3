import ControlFlow.Flowgraph.Revise

namespace ControlFlow

namespace Flowgraph

variable {π : Type}

def testViolation? (b : BlockId) (x : Block π) : Option Violation :=
  match x.onTrue, x.onFalse with
  | some t, some f =>
      if t ≠ f ∧ x.succs.size = 2 ∧ t ∈ x.succs ∧ f ∈ x.succs then none
      else some (.armsNotDistinct b x.succs.toList t f)
  | _, _ => some (.armMissing b)

def firstViolation? (g : Flowgraph π) : Option Violation :=
  g.ids.findSome? fun b =>
    (g.block? b).bind fun x => if x.isTest then testViolation? b x else none

def compute (g : Flowgraph π) (entry exit : BlockId) : Except Fault Results := do
  let v := g.view
  let N ← v.number entry
  let t ← v.dominators N
  if g.passes.crossCheck then
    t.requireSame (← v.fixpointDominators N)
  let post ← if g.passes.postDominators then some <$> v.postDominators exit else pure none
  return ⟨N, t, post⟩

def numbering? (g : Flowgraph π) : Option Numbering :=
  g.results.map (·.numbering)

def postDominators? (g : Flowgraph π) : Option DomTree :=
  g.results.bind (·.postDominators)

def treeOr (g : Flowgraph π) (stale : Fault) : Except Fault DomTree :=
  match g.results with
  | some r => .ok r.dominators
  | none => .error stale

def dominators? (g : Flowgraph π) : Except Fault DomTree :=
  g.treeOr .notAnalyzed

def dominators (g : Flowgraph π) : Except Fault DomTree :=
  g.treeOr .staleDominance

def reversePostorder (g : Flowgraph π) : Except Fault (List BlockId) :=
  match g.results with
  | some r => .ok r.numbering.reversePostorder
  | none => .error .staleOrder

def dominates (g : Flowgraph π) (a b : BlockId) : Except Fault Bool := do
  (← g.dominators).dominates a b

def strictlyDominates (g : Flowgraph π) (a b : BlockId) : Except Fault Bool := do
  (← g.dominators).strictlyDominates a b

def idom (g : Flowgraph π) (b : BlockId) : Except Fault (Option BlockId) := do
  (← g.dominators).idom b

def frontier (g : Flowgraph π) (b : BlockId) : Except Fault (List BlockId) := do
  (← g.dominators).frontier b

def iteratedFrontier (g : Flowgraph π) (b : BlockId) : Except Fault (List BlockId) := do
  (← g.dominators).iteratedFrontier b

def dominated (g : Flowgraph π) (b : BlockId) : Except Fault (List BlockId) := do
  (← g.dominators).dominated b

def arrange (g : Flowgraph π) : Except Fault Layout := do
  let preorder ← match g.entry with
    | some entry => g.view.preorder entry
    | none => pure []
  let edges := g.ids.flatMap fun b => (g.succs b).filterMap (g.edges.edge? b)
  let (conditional, unconditional) := edges.partition (·.flow.isConditional)
  return ⟨preorder, edges, conditional, unconditional⟩

end Flowgraph

namespace Edit

variable {π : Type}

def runIf (asked : Bool) (pass : Edit π Nat) : Edit π Unit :=
  match asked with
  | true => do
      let _ ← pass
  | false => return ()

/-- Writes into the block with number `pre` what the results say about it. A block that is numbered
and outside the tree is refused. -/
def mark (r : Results) (b : BlockId) (pre : Nat) : Edit π Unit := do
  match r.numbering.post? b, r.numbering.rpost? b, (← get).block? b with
  | some post, some rpost, some _ => do
      let idom ← ofExcept (r.dominators.idom b)
      let children ← ofExcept (r.dominators.children b)
      let marks :=
        { pre, post, rpost, idom, children
          parent := r.numbering.parent? b
          semi := r.dominators.semi? b }
      modify (·.update b ({ · with marks := some marks }))
  | _, _, _ => return ()

def record (r : Results) : Edit π Unit := do
  r.numbering.preorder.toList.zipIdx.forM fun (b, pre) => mark r b pre
  modify fun g =>
    { g with
      edges := r.numbering.crossings.foldl (fun x c => x.setKind c.source c.target c.kind) g.edges
      results := some r
      layout := none }

/-- Runs the passes: prunes, checks the tests, bypasses, and computes. What was pruned or bypassed
stays so where a later pass fails. -/
def analyze : Edit π Unit := do
  let g ← get
  match g.entry, g.exit with
  | none, _ => throw .missingEntry
  | some _, none => throw .missingExit
  | some entry, some exit => do
      runIf g.passes.prune prune
      match (← get).firstViolation? with
      | some v => throw (.violation v)
      | none => do
          runIf g.passes.bypass bypassAll
          modify (·.invalidate)
          let r ← ofExcept ((← get).compute entry exit)
          record r

def layout : Edit π Layout := do
  let g ← get
  match g.layout with
  | some l => return l
  | none =>
      let l ← ofExcept g.arrange
      set { g with layout := some l }
      return l

end Edit

end ControlFlow

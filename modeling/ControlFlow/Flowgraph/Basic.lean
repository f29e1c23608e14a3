import ControlFlow.Dominators
import ControlFlow.EdgeIndex
import ControlFlow.Flowgraph.Block
import ControlFlow.Passes

/-!
Control-flow graphs. Blocks live in an arena and keep their ids for good; the edges are kept a
second time in an index. What was derived from the graph is kept until the next edit, which
`invalidate` makes it forget.
-/

namespace ControlFlow

structure Results where
  numbering : Numbering
  dominators : DomTree
  postDominators : Option DomTree
  deriving DecidableEq

structure Layout where
  preorder : List BlockId
  edges : List Edge
  conditional : List Edge
  unconditional : List Edge
  deriving DecidableEq

structure Flowgraph (π : Type) where
  blocks : Array (Option (Block π))
  edges : EdgeIndex
  entry : Option BlockId
  exit : Option BlockId
  live : Nat
  passes : Passes
  /-- Absent from the first edit on until the graph is analyzed again. -/
  results : Option Results
  layout : Option Layout

namespace Flowgraph

variable {π : Type}

def empty (passes : Passes) : Flowgraph π :=
  ⟨#[], .empty, none, none, 0, passes, none, none⟩

def block? (g : Flowgraph π) (b : BlockId) : Option (Block π) :=
  g.blocks[b]?.join

def firstMissing? (g : Flowgraph π) (bs : List BlockId) : Option BlockId :=
  bs.find? fun b => (g.block? b).isNone

def ids (g : Flowgraph π) : List BlockId :=
  (List.range g.blocks.size).filter fun b => (g.block? b).isSome

def isDirty (g : Flowgraph π) : Bool :=
  g.results.isNone

def succs (g : Flowgraph π) (b : BlockId) : List BlockId :=
  ((g.block? b).map (·.succs.toList)).getD []

def preds (g : Flowgraph π) (b : BlockId) : List BlockId :=
  ((g.block? b).map (·.preds.toList)).getD []

def view (g : Flowgraph π) : View where
  bound := g.blocks.size
  inUse b := (g.block? b).isSome
  succs := g.succs
  preds := g.preds

def update (g : Flowgraph π) (b : BlockId) (f : Block π → Block π) : Flowgraph π :=
  { g with blocks := g.blocks.modify b (·.map f) }

/-- Forgets all that was derived. Blocks and edges hold traces of it only while the results do. -/
def invalidate (g : Flowgraph π) : Flowgraph π :=
  match g.results with
  | none => { g with layout := none }
  | some _ =>
      { g with
        blocks := g.blocks.map (·.map fun x => { x with marks := none })
        edges := g.edges.clearKinds
        results := none
        layout := none }

def append (g : Flowgraph π) : Flowgraph π :=
  invalidate { g with blocks := g.blocks.push (some .blank), live := g.live + 1 }

def link (g : Flowgraph π) (u v : BlockId) (flow : Flow) : Flowgraph π :=
  if g.edges.contains u v then g
  else
    let g := g.update u fun x => { x with succs := x.succs.push v }
    let g := g.update v fun x => { x with preds := x.preds.push u }
    invalidate { g with edges := g.edges.setFlow u v flow }

theorem block?_update (g : Flowgraph π) (b c : BlockId) (f : Block π → Block π) :
    (g.update b f).block? c = if b = c then (g.block? c).map f else g.block? c := by
  simp only [block?, update, Array.getElem?_modify]
  split
  · cases g.blocks[c]? with
    | none => rfl
    | some x => cases x <;> rfl
  · rfl

theorem block?_invalidate (g : Flowgraph π) (b : BlockId) :
    g.invalidate.block? b =
      if g.isDirty then g.block? b else (g.block? b).map fun x => { x with marks := none } := by
  cases h : g.results with
  | none => simp only [invalidate, isDirty, h, Option.isNone_none, if_true, block?]
  | some r =>
      simp only [invalidate, isDirty, h, Option.isNone_some, Bool.false_eq_true, if_false, block?,
        Array.getElem?_map]
      cases g.blocks[b]? with
      | none => rfl
      | some x => cases x <;> rfl

@[simp] theorem succs_invalidate (g : Flowgraph π) : g.invalidate.succs = g.succs := by
  funext b
  simp only [succs, block?_invalidate]
  split
  · rfl
  · cases g.block? b <;> rfl

@[simp] theorem preds_invalidate (g : Flowgraph π) : g.invalidate.preds = g.preds := by
  funext b
  simp only [preds, block?_invalidate]
  split
  · rfl
  · cases g.block? b <;> rfl

@[simp] theorem isDirty_invalidate (g : Flowgraph π) : g.invalidate.isDirty = true := by
  cases h : g.results <;> simp [invalidate, isDirty, h]

end Flowgraph

abbrev Edit (π : Type) := ExceptT Fault (StateM (Flowgraph π))

namespace Edit

variable {π α β : Type}

def exec (e : Edit π α) (g : Flowgraph π) : Except Fault α × Flowgraph π :=
  e.run.run g

@[simp] theorem exec_pure (a : α) (g : Flowgraph π) : exec (pure a) g = (.ok a, g) := rfl

theorem exec_bind (e : Edit π α) (f : α → Edit π β) (g : Flowgraph π) :
    exec (e >>= f) g =
      match exec e g with
      | (.ok a, h) => exec (f a) h
      | (.error x, h) => (.error x, h) := by
  simp only [exec, bind, ExceptT.bind, ExceptT.run, ExceptT.mk, StateT.run, StateT.bind]
  obtain ⟨r, h⟩ := e g
  cases r <;> rfl

@[simp] theorem exec_throw (x : Fault) (g : Flowgraph π) :
    exec (throw x : Edit π α) g = (.error x, g) := rfl

@[simp] theorem exec_get (g : Flowgraph π) : exec get g = (.ok g, g) := rfl

@[simp] theorem exec_set (h g : Flowgraph π) : exec (set h) g = (.ok ⟨⟩, h) := rfl

@[simp] theorem exec_modify (f : Flowgraph π → Flowgraph π) (g : Flowgraph π) :
    exec (modify f) g = (.ok ⟨⟩, f g) := rfl

@[simp] theorem exec_modifyGet (f : Flowgraph π → α × Flowgraph π) (g : Flowgraph π) :
    exec (modifyGet f) g = (.ok (f g).1, (f g).2) := rfl

def ofExcept (x : Except Fault α) : Edit π α :=
  ExceptT.mk (pure x)

@[simp] theorem exec_ofExcept (x : Except Fault α) (g : Flowgraph π) :
    exec (ofExcept x) g = (x, g) := rfl

def requireLive (b : BlockId) : Edit π (Block π) := do
  match (← get).block? b with
  | some x => return x
  | none => throw (.unknownBlock b)

theorem exec_requireLive (b : BlockId) (g : Flowgraph π) :
    exec (requireLive b) g =
      match g.block? b with
      | some x => (.ok x, g)
      | none => (.error (.unknownBlock b), g) := by
  rw [requireLive, exec_bind, exec_get]
  cases h : g.block? b <;> simp only [h, exec_pure, exec_throw]

def requireAll (bs : List BlockId) : Edit π Unit := do
  match (← get).firstMissing? bs with
  | some b => throw (.unknownBlock b)
  | none => return ()

theorem exec_requireAll (bs : List BlockId) (g : Flowgraph π) :
    exec (requireAll bs) g =
      match g.firstMissing? bs with
      | some b => (.error (.unknownBlock b), g)
      | none => (.ok (), g) := by
  rw [requireAll, exec_bind, exec_get]
  cases h : g.firstMissing? bs <;> simp only [h, exec_pure, exec_throw]

end Edit

end ControlFlow

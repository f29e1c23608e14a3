import ControlFlow.Flowgraph.Basic

namespace ControlFlow

inductive Arm where
  | onTrue
  | onFalse
  deriving DecidableEq, Repr

def Arm.flow : Arm → Flow
  | onTrue => .onTrue
  | onFalse => .onFalse

inductive Sentinel where
  | entry
  | exit
  deriving DecidableEq, Repr

def Sentinel.taken : Sentinel → BlockId → BlockId → Violation
  | entry => .entryTaken
  | exit => .exitTaken

namespace Block

variable {π : Type}

def target? (x : Block π) : Arm → Option BlockId
  | .onTrue => x.onTrue
  | .onFalse => x.onFalse

def aim (x : Block π) (arm : Arm) (b : BlockId) : Block π :=
  match arm with
  | .onTrue => { x with onTrue := some b, isTest := true }
  | .onFalse => { x with onFalse := some b, isTest := true }

def mark (x : Block π) : Sentinel → Block π
  | .entry => { x with isEntry := true }
  | .exit => { x with isExit := true }

end Block

namespace Flowgraph

variable {π : Type}

/-- The edge of an arm that now leads elsewhere becomes a plain one. -/
def demote (g : Flowgraph π) (b : BlockId) (old : Option BlockId) (target : BlockId) :
    Flowgraph π :=
  match old with
  | some o =>
      if o ≠ target ∧ g.edges.contains b o then
        { g with edges := g.edges.setFlow b o .unconditional }
      else g
  | none => g

def aim (g : Flowgraph π) (b : BlockId) (arm : Arm) (target : BlockId) : Flowgraph π :=
  let g := g.demote b ((g.block? b).bind (·.target? arm)) target
  let g := g.link b target arm.flow
  let g := { g with edges := g.edges.setFlow b target arm.flow }
  (g.update b (·.aim arm target)).invalidate

def sentinel? (g : Flowgraph π) : Sentinel → Option BlockId
  | .entry => g.entry
  | .exit => g.exit

def name (g : Flowgraph π) (s : Sentinel) (b : BlockId) : Flowgraph π :=
  match s with
  | .entry => { g with entry := some b }
  | .exit => { g with exit := some b }

def designate (g : Flowgraph π) (s : Sentinel) (b : BlockId) : Flowgraph π :=
  ((g.name s b).update b (·.mark s)).invalidate

end Flowgraph

namespace Edit

variable {π : Type}

def addBlock (preds : List BlockId) : Edit π BlockId := do
  requireAll preds
  modifyGet fun g =>
    let b := g.blocks.size
    (b, preds.foldl (fun g p => g.link p b .unconditional) g.append)

def connectTo (b : BlockId) (targets : List BlockId) : Edit π Unit := do
  requireAll (b :: targets)
  modify fun g => targets.foldl (fun g t => g.link b t .unconditional) g

def connectFrom (b : BlockId) (sources : List BlockId) : Edit π Unit := do
  requireAll (b :: sources)
  modify fun g => sources.foldl (fun g s => g.link s b .unconditional) g

def setArm (arm : Arm) (b target : BlockId) : Edit π Unit := do
  requireAll [target, b]
  modify (·.aim b arm target)

def addArm (arm : Arm) (b : BlockId) : Edit π BlockId := do
  requireAll [b]
  let target ← addBlock []
  setArm arm b target
  return target

/-- Another block in that place is in the way; to name the same one again changes nothing but the
analysis. -/
def designate (s : Sentinel) (b : BlockId) : Edit π Unit := do
  requireAll [b]
  match ((← get).sentinel? s).filter (· != b) with
  | some c => throw (.violation (s.taken c b))
  | none => modify (·.designate s b)

def markTest (b : BlockId) : Edit π Unit := do
  requireAll [b]
  modify fun g => (g.update b ({ · with isTest := true })).invalidate

def addNode (b : BlockId) (node : π) : Edit π Unit := do
  requireAll [b]
  modify (·.update b (·.push node))

def setPasses (p : Passes) : Edit π Unit :=
  modify fun g => { g with passes := p }.invalidate

def addSentinels : Edit π (BlockId × BlockId) := do
  let g ← get
  match g.entry <|> g.exit with
  | some b => throw (.violation (.sentinelExists b))
  | none => do
      let entry ← addBlock []
      let exit ← addBlock []
      designate .entry entry
      designate .exit exit
      return (entry, exit)

end Edit

end ControlFlow

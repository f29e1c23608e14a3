import ControlFlow.BlockId

namespace ControlFlow

/-- How a depth-first walk meets an edge: it discovers the target, returns to a block still open,
skips to a descendant already closed, or reaches none of these. -/
inductive EdgeClass where
  | tree
  | back
  | forward
  | cross
  deriving DecidableEq, Repr

namespace EdgeClass

def all : List EdgeClass :=
  [tree, back, forward, cross]

theorem mem_all (c : EdgeClass) : c ∈ all := by
  cases c <;> decide

def isRetreating : EdgeClass → Bool
  | back => true
  | _ => false

def text : EdgeClass → String
  | tree => "tree edge"
  | back => "back edge"
  | forward => "forward edge"
  | cross => "cross edge"

end EdgeClass

inductive Flow where
  | unconditional
  | onTrue
  | onFalse
  deriving DecidableEq, Repr, Inhabited

namespace Flow

def all : List Flow :=
  [unconditional, onTrue, onFalse]

theorem mem_all (f : Flow) : f ∈ all := by
  cases f <;> decide

def isConditional : Flow → Bool
  | unconditional => false
  | onTrue => true
  | onFalse => true

def text : Flow → String
  | unconditional => "Unconditional"
  | onTrue => "ConditionalTrue"
  | onFalse => "ConditionalFalse"

end Flow

structure Edge where
  source : BlockId
  target : BlockId
  flow : Flow
  kind : Option EdgeClass
  deriving DecidableEq, Repr

def Edge.isLoop (e : Edge) : Bool :=
  e.source == e.target

end ControlFlow

import ControlFlow.BlockId

namespace ControlFlow

structure Marks where
  pre : Nat
  post : Nat
  rpost : Nat
  parent : Option BlockId
  semi : Option BlockId
  idom : Option BlockId
  children : List BlockId
  deriving DecidableEq

structure Block (π : Type) where
  preds : Array BlockId
  succs : Array BlockId
  nodes : Array π
  onTrue : Option BlockId
  onFalse : Option BlockId
  isEntry : Bool
  isExit : Bool
  isTest : Bool
  marks : Option Marks

/-- Puts `new` in the place of `old`; if `new` is listed already, `old` just goes. -/
def redirect (old new : BlockId) (bs : Array BlockId) : Array BlockId :=
  if bs.contains new then bs.erase old else bs.replace old new

theorem toList_redirect (old new : BlockId) (bs : Array BlockId) :
    (redirect old new bs).toList =
      if new ∈ bs.toList then bs.toList.erase old else bs.toList.replace old new := by
  cases bs
  simp only [redirect, List.contains_toArray, List.contains_iff_mem, List.erase_toArray,
    List.replace_toArray]
  split <;> rfl

namespace Block

variable {π : Type}

def blank : Block π :=
  ⟨#[], #[], #[], none, none, false, false, false, none⟩

def isEmpty (x : Block π) : Bool :=
  x.nodes.isEmpty

def push (x : Block π) (node : π) : Block π :=
  { x with nodes := x.nodes.push node }

def addPred (x : Block π) (b : BlockId) : Block π :=
  if x.preds.contains b then x else { x with preds := x.preds.push b }

def addSucc (x : Block π) (b : BlockId) : Block π :=
  if x.succs.contains b then x else { x with succs := x.succs.push b }

def dropPred (x : Block π) (b : BlockId) : Block π :=
  { x with preds := x.preds.erase b }

def dropSucc (x : Block π) (b : BlockId) : Block π :=
  { x with
    succs := x.succs.erase b
    onTrue := if x.onTrue = some b then none else x.onTrue
    onFalse := if x.onFalse = some b then none else x.onFalse }

def redirectPred (x : Block π) (old new : BlockId) : Block π :=
  { x with preds := redirect old new x.preds }

def redirectSucc (x : Block π) (old new : BlockId) : Block π :=
  { x with
    succs := redirect old new x.succs
    onTrue := if x.onTrue = some old then some new else x.onTrue
    onFalse := if x.onFalse = some old then some new else x.onFalse }

def bits (x : Block π) : Nat :=
  x.isEntry.toNat + 2 * x.isExit.toNat + 4 * x.isTest.toNat

def letters (x : Block π) : String :=
  (if x.isEntry then "E" else "") ++ (if x.isExit then "X" else "") ++
    (if x.isTest then "T" else "")

end Block

end ControlFlow

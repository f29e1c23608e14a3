import ControlFlow.Edge
import Std.Data.ExtTreeMap

namespace ControlFlow

structure Label where
  flow : Flow
  kind : Option EdgeClass
  deriving DecidableEq, Repr

abbrev pairOrder : BlockId × BlockId → BlockId × BlockId → Ordering :=
  compareLex (compareOn Prod.fst) (compareOn Prod.snd)

instance : Std.LawfulEqCmp pairOrder where
  eq_of_compare {a b} h := by
    simp only [compareLex_eq_eq, compareOn] at h
    exact Prod.ext (Std.LawfulEqOrd.eq_of_compare h.1) (Std.LawfulEqOrd.eq_of_compare h.2)

structure EdgeIndex where
  labels : Std.ExtTreeMap (BlockId × BlockId) Label pairOrder

namespace EdgeIndex

def empty : EdgeIndex :=
  ⟨∅⟩

def label? (x : EdgeIndex) (u v : BlockId) : Option Label :=
  x.labels[(u, v)]?

def contains (x : EdgeIndex) (u v : BlockId) : Bool :=
  (x.label? u v).isSome

def edge? (x : EdgeIndex) (u v : BlockId) : Option Edge :=
  (x.label? u v).map fun l => ⟨u, v, l.flow, l.kind⟩

def size (x : EdgeIndex) : Nat :=
  x.labels.size

def isEmpty (x : EdgeIndex) : Bool :=
  x.labels.isEmpty

def set (x : EdgeIndex) (u v : BlockId) (l : Label) : EdgeIndex :=
  ⟨x.labels.insert (u, v) l⟩

def erase (x : EdgeIndex) (u v : BlockId) : EdgeIndex :=
  ⟨x.labels.erase (u, v)⟩

def setFlow (x : EdgeIndex) (u v : BlockId) (f : Flow) : EdgeIndex :=
  x.set u v ⟨f, (x.label? u v).bind (·.kind)⟩

/-- Gives the edge a class. An edge not yet present becomes an unconditional one. -/
def setKind (x : EdgeIndex) (u v : BlockId) (c : EdgeClass) : EdgeIndex :=
  x.set u v ⟨((x.label? u v).map (·.flow)).getD .unconditional, some c⟩

def clearKinds (x : EdgeIndex) : EdgeIndex :=
  ⟨x.labels.map fun _ l => { l with kind := none }⟩

def eraseAll (x : EdgeIndex) : List (BlockId × BlockId) → EdgeIndex × Nat
  | [] => (x, 0)
  | (u, v) :: ps =>
      let (y, n) := (x.erase u v).eraseAll ps
      (y, if x.contains u v then n + 1 else n)

def eraseBlock (x : EdgeIndex) (b : BlockId) (succs preds : List BlockId) : EdgeIndex × Nat :=
  x.eraseAll (succs.map (b, ·) ++ preds.map (·, b))

def toList (x : EdgeIndex) : List Edge :=
  x.labels.toList.map fun ((u, v), l) => ⟨u, v, l.flow, l.kind⟩

theorem ext {x y : EdgeIndex} (h : ∀ u v, x.label? u v = y.label? u v) : x = y := by
  cases x
  cases y
  congr 1
  exact Std.ExtTreeMap.ext_getElem? fun p => h p.1 p.2

@[simp] theorem label?_empty (u v : BlockId) : empty.label? u v = none := by
  simp [label?, empty]

theorem label?_set (x : EdgeIndex) (u v : BlockId) (l : Label) (u' v' : BlockId) :
    (x.set u v l).label? u' v' = if u = u' ∧ v = v' then some l else x.label? u' v' := by
  simp only [label?, set, Std.ExtTreeMap.getElem?_insert, Std.LawfulEqCmp.compare_eq_iff_eq,
    Prod.mk.injEq]

theorem label?_erase (x : EdgeIndex) (u v u' v' : BlockId) :
    (x.erase u v).label? u' v' = if u = u' ∧ v = v' then none else x.label? u' v' := by
  simp only [label?, erase, Std.ExtTreeMap.getElem?_erase, Std.LawfulEqCmp.compare_eq_iff_eq,
    Prod.mk.injEq]

theorem label?_clearKinds (x : EdgeIndex) (u v : BlockId) :
    x.clearKinds.label? u v = (x.label? u v).map fun l => { l with kind := none } := by
  simp only [label?, clearKinds, Std.ExtTreeMap.getElem?_map]

end EdgeIndex

end ControlFlow

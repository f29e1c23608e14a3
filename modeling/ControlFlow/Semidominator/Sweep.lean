import ControlFlow.Fault
import ControlFlow.Semidominator.Forest

/-!
Immediate dominators of a numbered graph by way of semidominators. The vertices are visited from
the last number to the first; each waits in the bucket of its semidominator until the vertices
between the two are linked, and what that leaves open is settled by one pass upwards.
-/

namespace ControlFlow

structure Spanning (n : Nat) where
  block : Vector BlockId n
  parent : Vector (Fin n) n
  preds : Vector (List (Fin n)) n

structure Sweep (n : Nat) where
  forest : SemiForest n
  bucket : Vector (List (Fin n)) n
  idom : Vector (Fin n) n

namespace Sweep

variable {n : Nat}

def start (root : Fin n) : Sweep n :=
  ⟨.discrete n, .replicate n [], .replicate n root⟩

/-- The semidominator of `v` is `p`: its dominator is `p` too, unless a vertex in between has a
lower one, whose dominator it then shares. -/
def resolve (p : Fin n) (s : Sweep n) (v : Fin n) : Sweep n :=
  let (F, u) := s.forest.eval v
  { s with
    forest := F
    idom := s.idom.set v (if F.semi.get u < F.semi.get v then u else p) v.isLt }

def visit (S : Spanning n) (i : Fin n) (s : Sweep n) : Except Fault (Sweep n) :=
  let F := (S.preds.get i).foldl (·.lower i) s.forest
  let k := F.semi.get i
  if k < i then
    let p := S.parent.get i
    let bucket := s.bucket.set k (i :: s.bucket.get k) k.isLt
    let waiting := (bucket.get p).reverse
    .ok (waiting.foldl (resolve p) ⟨F.link p i, bucket.set p [] p.isLt, s.idom⟩)
  else .error (.violation (.semidominatorNotAbove (S.block.get i) i k))

def down (S : Spanning n) : (i : Nat) → i < n → Sweep n → Except Fault (Sweep n)
  | 0, _, s => .ok s
  | i + 1, h, s => do
      let s ← visit S ⟨i + 1, h⟩ s
      down S i (by omega) s

def close (semi : Vector (Fin n) n) (idom : Vector (Fin n) n) (i : Fin n) : Vector (Fin n) n :=
  if idom.get i = semi.get i then idom else idom.set i (idom.get (idom.get i)) i.isLt

end Sweep

def Spanning.solve {n : Nat} (S : Spanning n) (h : 0 < n) :
    Except Fault (Vector (Fin n) n × Vector (Fin n) n) := do
  let s ← Sweep.down S (n - 1) (by omega) (.start ⟨0, h⟩)
  let semi := s.forest.semi
  return (((List.finRange n).drop 1).foldl (Sweep.close semi) s.idom, semi)

end ControlFlow

import ControlFlow.Fault

/-!
Immediate dominators of a numbered graph as the fixpoint of a table: round after round, each
vertex takes the meeting point of its predecessors.
-/

namespace ControlFlow

abbrev DomTable (n : Nat) := Vector (Option (Fin n)) n

namespace DomTable

variable {n : Nat}

def start (n : Nat) : DomTable n :=
  .ofFn fun i => if i.val = 0 then some i else none

def up (t : DomTable n) (a : Fin n) : Fin n :=
  (t.get a).getD ⟨0, a.pos⟩

def meet? (t : DomTable n) : Nat → Fin n → Fin n → Option (Fin n)
  | k, a, b =>
      if a = b then some a
      else
        match k with
        | 0 => none
        | k + 1 => if b < a then t.meet? k (t.up a) b else t.meet? k a (t.up b)

/-- There are `n * n` pairs, so a meeting that takes more moves never comes about. -/
def meet (t : DomTable n) (a b : Fin n) : Except Fault (Fin n) :=
  match t.meet? (n * n) a b with
  | some c => .ok c
  | none => .error .unsettled

def join (t : DomTable n) (known : Option (Fin n)) (p : Fin n) : Except Fault (Option (Fin n)) :=
  match t.get p, known with
  | none, _ => .ok known
  | some _, none => .ok (some p)
  | some _, some c => some <$> t.meet p c

def update (preds : Vector (List (Fin n)) n) (t : DomTable n) (r : Fin n) :
    Except Fault (DomTable n) := do
  return t.set r (← (preds.get r).foldlM t.join none) r.isLt

def round (preds : Vector (List (Fin n)) n) (t : DomTable n) : Except Fault (DomTable n) :=
  ((List.finRange n).drop 1).foldlM (update preds) t

def settle (preds : Vector (List (Fin n)) n) : Nat → DomTable n → Except Fault (DomTable n)
  | 0, _ => .error .unsettled
  | k + 1, t => do
      let t' ← round preds t
      if t' = t then return t else settle preds k t'

/-- There are `Nat.pow (n + 1) n` tables, so a run of more rounds would never end. -/
def solve (preds : Vector (List (Fin n)) n) : Except Fault (DomTable n) :=
  settle preds (Nat.pow (n + 1) n + 1) (start n)

end DomTable

end ControlFlow

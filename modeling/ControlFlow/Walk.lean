import ControlFlow.IdSet
import ControlFlow.View

namespace ControlFlow

/-- The blocks of a list not yet seen, in order. The list is checked from its end, so of several
ids outside the set the last is the one refused. -/
def IdSet.unseen (seen : IdSet) : List BlockId → Except Fault (List BlockId)
  | [] => .ok []
  | b :: bs => do
      let rest ← seen.unseen bs
      if ← seen.contains b then return rest else return b :: rest

structure Walk where
  pending : List BlockId
  seen : IdSet

namespace Walk

def start (g : View) (b : BlockId) : Walk :=
  ⟨if b < g.bound then [b] else [], .empty g.bound⟩

def next (g : View) : List BlockId → IdSet → Except Fault (Option (BlockId × Walk))
  | [], _ => .ok none
  | b :: rest, seen =>
      if b < seen.capacity then
        if seen.has b then next g rest seen
        else do
          let more ← (seen.put b).unseen (g.succs b)
          return some (b, ⟨more ++ rest, seen.put b⟩)
      else .error (.outsideSet b seen.capacity)

theorem room_next {g : View} {pending : List BlockId} {seen : IdSet} {b : BlockId} {w : Walk}
    (h : next g pending seen = .ok (some (b, w))) : w.seen.room < seen.room := by
  induction pending with
  | nil => simp [next] at h
  | cons x rest ih =>
      simp only [next] at h
      split at h
      · rename_i hx
        split at h
        · exact ih h
        · rename_i hs
          cases hu : (seen.put x).unseen (g.succs x) with
          | error e => simp [hu, bind, Except.bind] at h
          | ok more =>
              simp only [hu, bind, Except.bind, pure, Except.pure] at h
              cases h
              exact IdSet.room_put_lt hx (by simpa using hs)
      · cases h

def rest (g : View) (w : Walk) : Except Fault (List BlockId) :=
  match _hn : next g w.pending w.seen with
  | .error e => .error e
  | .ok none => .ok []
  | .ok (some (b, w')) => do
      let bs ← rest g w'
      return b :: bs
termination_by w.seen.room
decreasing_by exact room_next (by assumption)

def take (g : View) : Nat → Walk → Except Fault (List BlockId)
  | 0, _ => .ok []
  | k + 1, w => do
      match ← next g w.pending w.seen with
      | none => return []
      | some (b, w') => return b :: (← take g k w')

end Walk

namespace View

def preorder (g : View) (b : BlockId) : Except Fault (List BlockId) :=
  (Walk.start g b).rest g

def preorderTake (g : View) (b : BlockId) (k : Nat) : Except Fault (List BlockId) :=
  Walk.take g k (.start g b)

def reachable (g : View) (b : BlockId) : Except Fault IdSet := do
  (← g.preorder b).foldlM (fun seen c => return (← seen.insert c).2) (.empty g.bound)

end View

inductive Stop where
  | enter (b : BlockId)
  | leave (b : BlockId)

def finishOrder (g : View) : List Stop → IdSet → Except Fault (List BlockId)
  | [], _ => .ok []
  | .leave b :: rest, seen => do
      let bs ← finishOrder g rest seen
      return b :: bs
  | .enter b :: rest, seen =>
      if _ : b < seen.capacity then
        if _ : seen.has b = true then finishOrder g rest seen
        else do
          let more ← (seen.put b).unseen (g.succs b)
          finishOrder g (more.map .enter ++ .leave b :: rest) (seen.put b)
      else .error (.outsideSet b seen.capacity)
termination_by stack seen => (seen.room, stack.length)
decreasing_by
  · exact Prod.Lex.right _ (Nat.lt_succ_self _)
  · exact Prod.Lex.right _ (Nat.lt_succ_self _)
  · exact Prod.Lex.left _ _ (IdSet.room_put_lt (by assumption) (by simp_all))

namespace View

def postorder (g : View) (b : BlockId) : Except Fault (List BlockId) :=
  if b < g.bound then finishOrder g [.enter b] (.empty g.bound) else .ok []

def reversePostorder (g : View) (b : BlockId) : Except Fault (List BlockId) :=
  List.reverse <$> g.postorder b

end View

end ControlFlow

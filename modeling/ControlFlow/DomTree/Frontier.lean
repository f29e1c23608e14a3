import ControlFlow.DomTree.Basic
import ControlFlow.IdSet
import ControlFlow.View

namespace ControlFlow.DomTree

def marked (F : Array (List BlockId)) (r b : BlockId) : Bool :=
  match F[r]? with
  | some (c :: _) => c == b
  | _ => false

/-- Notes `b` in the frontier of `r` and of the blocks above it, up to `stop` exclusively. The
newest entry of each frontier is in front, so a climb ends where an earlier one for the same `b`
passed. -/
def mark (t : DomTree) (b : BlockId) (stop : Option BlockId) :
    Nat → BlockId → Array (List BlockId) → Array (List BlockId)
  | d, r, F =>
      if stop == some r || marked F r b then F
      else
        let F := F.modify r (b :: ·)
        match d, t.idom? r with
        | d + 1, some p => t.mark b stop d p F
        | _, _ => F

/-- Notes `b` in the frontiers that it belongs to. Only a block with two ways in ends another
block's dominance; the root has one more way in than it has predecessors. -/
def markJoin (t : DomTree) (g : View) (b : BlockId) (F : Array (List BlockId)) :
    Array (List BlockId) :=
  let preds := (g.preds b).filter t.contains
  if t.contains b ∧ (2 ≤ preds.length ∨ (b = t.root ∧ preds ≠ [])) then
    preds.foldl (fun F p => t.mark b (t.idom? b) (t.depthOf p) p F) F
  else F

def frontierTable (t : DomTree) (g : View) : Array (List BlockId) :=
  (List.range t.bound).foldr (t.markJoin g) (Array.replicate t.bound [])

def frontier (t : DomTree) (b : BlockId) : Except Fault (List BlockId) := do
  t.require b
  return t.frontierOf b

def fresh (t : DomTree) (seen : IdSet) (b : BlockId) : List BlockId :=
  (t.frontierOf b).filter fun m => decide (m < seen.capacity) && !seen.has m

theorem room_foldl_put_le (ms : List BlockId) (s : IdSet) (h : ∀ m ∈ ms, m < s.capacity) :
    (ms.foldl .put s).room ≤ s.room := by
  induction ms generalizing s with
  | nil => exact Nat.le_refl _
  | cons m ms ih =>
      have hm := h m List.mem_cons_self
      refine Nat.le_trans (ih (s.put m) fun x hx => h x (List.mem_cons_of_mem _ hx)) ?_
      exact List.countP_mono_left fun x _ hx => by
        rw [IdSet.has_put hm] at hx
        cases hs : s.has x <;> simp_all

theorem room_foldl_put_lt {t : DomTree} {seen : IdSet} {b m : BlockId} {ms : List BlockId}
    (h : t.fresh seen b = m :: ms) : ((m :: ms).foldl .put seen).room < seen.room := by
  have hall : ∀ x ∈ m :: ms, x < seen.capacity ∧ seen.has x = false := by
    intro x hx
    rw [← h, fresh, List.mem_filter] at hx
    simpa using hx.2
  have hm := hall m List.mem_cons_self
  refine Nat.lt_of_le_of_lt
    (room_foldl_put_le ms (seen.put m) fun x hx => (hall x (List.mem_cons_of_mem _ hx)).1) ?_
  exact IdSet.room_put_lt hm.1 hm.2

/-- Blocks met by going from frontier to frontier in the order they are met. A block met goes onto
the worklist only if it is accepted, and no block is met twice. -/
def spread (t : DomTree) (accept : BlockId → Bool) : List BlockId → IdSet → List BlockId
  | [], _ => []
  | b :: rest, seen =>
      match _hf : t.fresh seen b with
      | [] => t.spread accept rest seen
      | m :: ms =>
          (m :: ms) ++ t.spread accept (((m :: ms).filter accept).reverse ++ rest)
            ((m :: ms).foldl .put seen)
termination_by work seen => (seen.room, work.length)
decreasing_by
  · exact Prod.Lex.right _ (Nat.lt_succ_self _)
  · exact Prod.Lex.left _ _ (room_foldl_put_lt (by assumption))

def prunedIteratedFrontier (t : DomTree) (b : BlockId) (accept : BlockId → Bool) :
    Except Fault (List BlockId) := do
  t.require b
  return t.spread accept [b] (.empty t.bound)

def iteratedFrontierOf (t : DomTree) (bs : List BlockId) : Except Fault (List BlockId) := do
  bs.forM t.require
  return (t.spread (fun _ => true) bs (.empty t.bound)).mergeSort (· ≤ ·)

def iteratedFrontier (t : DomTree) (b : BlockId) : Except Fault (List BlockId) :=
  t.iteratedFrontierOf [b]

end ControlFlow.DomTree

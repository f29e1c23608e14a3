import ControlFlow.Proofs.DomTree.Closure
import ControlFlow.Proofs.DomTree.Nearest
import ControlFlow.Proofs.IdSet.Elements
import ControlFlow.Proofs.Tables

/-!
The queries of a tree once more, as loops that read a table where they come to it and put blocks
into a set of fixed capacity. A loop is known by one equation only, a turn and then the loop again,
so an answer that is proved of it is reached. On a tree that an analysis returned each loop comes to
an end, no table is read beside its entries and no set is too small: these are the same queries.
-/

namespace ControlFlow.DomTree

variable {α β σ : Type} {t : DomTree} {a b c m : BlockId}

namespace Stepwise

def idom (t : DomTree) (b : BlockId) : Except Fault (Option BlockId) := do
  t.require b
  lookUp t.idoms b

def children (t : DomTree) (b : BlockId) : Except Fault (List BlockId) := do
  t.require b
  lookUp t.kids b

def depth (t : DomTree) (b : BlockId) : Except Fault Nat := do
  t.require b
  lookUp t.depths b

def frontier (t : DomTree) (b : BlockId) : Except Fault (List BlockId) := do
  t.require b
  lookUp t.frontiers b

def climb (t : DomTree) :
    Option BlockId × List BlockId → Except Fault ((Option BlockId × List BlockId) ⊕ List BlockId)
  | (none, passed) => return .inr passed.reverse
  | (some b, passed) => do
      let up ← lookUp t.idoms b
      return .inl (up, b :: passed)

def dominators (t : DomTree) (b : BlockId) : Except Fault (List BlockId) := do
  t.require b
  repeatM (climb t) (some b, [])

def strictDominators (t : DomTree) (b : BlockId) : Except Fault (List BlockId) := do
  return (← dominators t b).drop 1

def search (t : DomTree) (b : BlockId) :
    Option BlockId → Except Fault (Option BlockId ⊕ Option BlockId)
  | none => return .inr none
  | some c => do
      let up ← lookUp t.idoms c
      if ← t.dominates c b then return .inr (some c) else return .inl up

def commonDominator (t : DomTree) (a b : BlockId) : Except Fault BlockId := do
  t.require b
  t.require a
  return (← repeatM (search t b) (some a)).getD t.root

def descend (t : DomTree) :
    List BlockId × List BlockId → Except Fault ((List BlockId × List BlockId) ⊕ List BlockId)
  | ([], passed) => return .inr passed.reverse
  | (b :: work, passed) => do
      let kids ← lookUp t.kids b
      return .inl (kids ++ work, b :: passed)

def dominated (t : DomTree) (b : BlockId) : Except Fault (List BlockId) := do
  t.require b
  repeatM (descend t) ([b], [])

def strictlyDominated (t : DomTree) (b : BlockId) : Except Fault (List BlockId) := do
  match ← dominated t b with
  | [] => throw .indexOutOfBounds
  | _ :: bs => return bs

structure Hunt where
  seen : IdSet
  work : List BlockId
  found : List BlockId

def turn (t : DomTree) (take : Hunt → BlockId → Except Fault Hunt) (s : Hunt) :
    Except Fault (Hunt ⊕ List BlockId) :=
  match s.work with
  | [] => return .inr s.found
  | b :: work => do
      let members ← lookUp t.frontiers b
      return .inl (← members.foldlM take { s with work })

def hunt (t : DomTree) (take : Hunt → BlockId → Except Fault Hunt) (s : Hunt) :
    Except Fault (List BlockId) :=
  repeatM (turn t take) s

def seed (t : DomTree) (s : Hunt) (b : BlockId) : Except Fault Hunt := do
  t.require b
  let (fresh, seen) ← s.seen.insert b
  return { s with seen, work := if fresh then b :: s.work else s.work }

def record (s : Hunt) (m : BlockId) : Except Fault Hunt := do
  let (fresh, seen) ← s.seen.insert m
  return ⟨seen, if fresh then m :: s.work else s.work, s.found.insert m⟩

def iteratedFrontierOf (t : DomTree) (bs : List BlockId) : Except Fault (List BlockId) := do
  let s ← bs.foldlM (seed t) ⟨.empty t.bound, [], []⟩
  return (← hunt t record s).mergeSort (· ≤ ·)

def offer (visit : List BlockId → BlockId → Bool) (s : Hunt) (m : BlockId) : Except Fault Hunt := do
  let (fresh, seen) ← s.seen.insert m
  if fresh then return ⟨seen, if visit s.found m then m :: s.work else s.work, m :: s.found⟩
  else return { s with seen }

def prunedIteratedFrontier (t : DomTree) (b : BlockId) (visit : List BlockId → BlockId → Bool) :
    Except Fault (List BlockId) := do
  t.require b
  return (← hunt t (offer visit) ⟨.empty t.bound, [b], []⟩).reverse

end Stepwise

section Tables

variable {g : View} {root r : BlockId} {idoms semis : Array (Option BlockId)} {N : Numbering}
  {stop : Option BlockId} {F : Array (List BlockId)}

theorem size_mark (k : Nat) : (t.mark b stop k r F).size = F.size := by
  induction k generalizing r F with
  | zero =>
      rw [mark]
      split
      · rfl
      · exact Array.size_modify
  | succ k ih =>
      rw [mark]
      split
      · rfl
      · dsimp only
        cases t.idom? r with
        | none => exact Array.size_modify
        | some p => exact ih.trans Array.size_modify

theorem size_markJoin : (t.markJoin g b F).size = F.size := by
  rw [markJoin]
  split
  · exact List.foldlRecOn (motive := fun F' : Array (List BlockId) => F'.size = F.size) _ _ rfl
      fun _ hF _ _ => (size_mark _).trans hF
  · rfl

theorem size_frontierTable : (t.frontierTable g).size = t.bound := by
  rw [frontierTable]
  induction List.range t.bound with
  | nil => exact Array.size_replicate
  | cons b bs ih => rw [List.foldr_cons, size_markJoin, ih]

structure Tabled (t : DomTree) : Prop where
  kids : t.kids.size = t.bound
  depths : t.depths.size = t.bound
  frontiers : t.frontiers.size = t.bound

theorem tabled_ofNumbering (g : View) (root : BlockId) (idoms semis : Array (Option BlockId))
    (N : Numbering) : Tabled (ofNumbering g root idoms semis N) where
  kids := by
    change (childTable idoms).size = idoms.size
    rw [childTable_eq_lists, View.size_lists]
  depths := by
    change (depthTable idoms N.preorder).size = idoms.size
    rw [depthTable, ← Array.foldl_toList]
    exact (size_foldl_setDepth _ _).trans Array.size_replicate
  frontiers := size_frontierTable

theorem Returned.tabled (h : t.Returned) : Tabled t := by
  obtain ⟨g, root, idoms, semis, hbuilt⟩ := h.exists_ofIdoms
  obtain ⟨N, -, rfl⟩ := exists_buildable hbuilt
  exact tabled_ofNumbering g root idoms semis N

theorem lookUp_of_lt {T : Array α} {x : α} (hb : b < T.size) : lookUp T b = .ok (T[b]?.getD x) := by
  refine lookUp_of_some ?_
  rw [Array.getElem?_eq_getElem hb, Option.getD_some]

namespace Returned

variable (h : t.Returned)

include h

theorem lookUp_idoms (hb : t.contains b = true) : lookUp t.idoms b = .ok (t.idom? b) := by
  refine lookUp_of_some ?_
  rw [idom?, Array.getElem?_eq_getElem (h.levelled.lt_bound b hb)]
  rfl

theorem lookUp_kids (hb : t.contains b = true) : lookUp t.kids b = .ok (t.kidsOf b) :=
  lookUp_of_lt (h.tabled.kids ▸ h.levelled.lt_bound b hb)

theorem lookUp_depths (hb : t.contains b = true) : lookUp t.depths b = .ok (t.depthOf b) :=
  lookUp_of_lt (h.tabled.depths ▸ h.levelled.lt_bound b hb)

theorem lookUp_frontiers (hb : t.contains b = true) : lookUp t.frontiers b = .ok (t.frontierOf b) :=
  lookUp_of_lt (h.tabled.frontiers ▸ h.levelled.lt_bound b hb)

end Returned

end Tables

namespace Stepwise

theorem bind_of_ok {x : Except Fault α} {y : α} {f : α → Except Fault β} (h : x = .ok y) :
    x >>= f = f y := by
  rw [h]
  rfl

section Loop

variable [Nonempty β] {f : σ → Except Fault (σ ⊕ β)} {s s' : σ} {y : β}

theorem repeatM_of_inl (h : f s = .ok (.inl s')) : repeatM f s = repeatM f s' := by
  rw [repeatM_eq_of_monadTail, repeatM.body, bind_of_ok h]

theorem repeatM_of_inr (h : f s = .ok (.inr y)) : repeatM f s = .ok y := by
  rw [repeatM_eq_of_monadTail, repeatM.body, bind_of_ok h]
  rfl

end Loop

theorem require_bind_eq {x y : Except Fault α} (h : t.contains b = true → x = y) :
    (do t.require b; x) = (do t.require b; y) := by
  by_cases hb : t.contains b = true
  · rw [h hb]
  · rw [require, if_neg hb]
    rfl

variable (h : t.Returned)

include h

theorem idom_eq : idom t b = t.idom b :=
  require_bind_eq fun hb => h.lookUp_idoms hb

theorem children_eq : children t b = t.children b :=
  require_bind_eq fun hb => h.lookUp_kids hb

theorem depth_eq : depth t b = t.depth b :=
  require_bind_eq fun hb => h.lookUp_depths hb

theorem frontier_eq : frontier t b = t.frontier b :=
  require_bind_eq fun hb => h.lookUp_frontiers hb

section Upward

theorem climb_some (hb : t.contains b = true) (passed : List BlockId) :
    climb t (some b, passed) = .ok (.inl (t.idom? b, b :: passed)) :=
  bind_of_ok (h.lookUp_idoms hb)

theorem repeatM_climb (hb : t.contains b = true) (passed : List BlockId) :
    repeatM (climb t) (some b, passed) = .ok (passed.reverse ++ t.chain b) := by
  have ht := h.threaded
  revert passed
  refine ht.rec_root (fun passed => ?_) (fun x p hp ih passed => ?_) hb
  · have hroot := (ht.contains_iff t.root).mpr (.inl rfl)
    rw [repeatM_of_inl (climb_some h hroot passed), ht.idom_root, repeatM_of_inr rfl,
      chain_top ht.idom_root, List.reverse_cons]
  · have hx := (ht.contains_iff x).mpr (.inr ⟨p, hp⟩)
    rw [repeatM_of_inl (climb_some h hx passed), hp, ih, ht.chain_eq hp, List.reverse_cons,
      List.append_assoc]
    rfl

theorem dominators_eq : dominators t b = t.dominators b :=
  require_bind_eq fun hb => repeatM_climb h hb []

theorem strictDominators_eq : strictDominators t b = t.strictDominators b := by
  rw [strictDominators, dominators_eq h, DomTree.dominators, DomTree.strictDominators, bind_assoc]
  rfl

theorem repeatM_search_some (hb : t.contains b = true) (hc : t.contains c = true) :
    repeatM (search t b) (some c) =
      if t.encloses b c then .ok (some c) else repeatM (search t b) (t.idom? c) := by
  have hturn : search t b (some c) =
      if t.encloses b c then .ok (.inr (some c)) else .ok (.inl (t.idom? c)) := by
    rw [search, bind_of_ok (h.lookUp_idoms hc), bind_of_ok (dominates_eq hc hb)]
    rfl
  split
  · rename_i hencloses
    exact repeatM_of_inr (hturn.trans (if_pos hencloses))
  · rename_i hencloses
    exact repeatM_of_inl (hturn.trans (if_neg hencloses))

theorem repeatM_search (hb : t.contains b = true) (hc : t.contains c = true) :
    repeatM (search t b) (some c) = .ok ((t.chain c).find? (t.encloses b)) := by
  have ht := h.threaded
  refine ht.rec_root ?_ (fun x p hp ih => ?_) hc
  · have hroot := (ht.contains_iff t.root).mpr (.inl rfl)
    rw [repeatM_search_some h hb hroot, ht.idom_root, repeatM_of_inr rfl, chain_top ht.idom_root,
      List.find?_cons, List.find?_nil]
    cases t.encloses b t.root <;> rfl
  · have hx := (ht.contains_iff x).mpr (.inr ⟨p, hp⟩)
    rw [repeatM_search_some h hb hx, hp, ih, ht.chain_eq hp, List.find?_cons]
    cases t.encloses b x <;> rfl

theorem commonDominator_eq : commonDominator t a b = t.commonDominator a b :=
  require_bind_eq fun hb => require_bind_eq fun ha => bind_of_ok (repeatM_search h hb ha)

end Upward

section Downward

theorem subtree_eq_cons (hb : t.contains b = true) :
    t.subtree t.size b = b :: (t.kidsOf b).flatMap (t.subtree t.size) := by
  have ht := h.threaded
  have hheight := ht.heightLe_size hb
  obtain ⟨k, hk⟩ := Nat.exists_eq_succ_of_ne_zero (Nat.ne_zero_of_lt (ht.depthOf_lt_size hb))
  rw [hk] at hheight ⊢
  rw [subtree, List.flatMap_congr fun c hc => ?_]
  have hc := ht.kids_heightLe hheight hc
  exact ht.subtree_eq hc fun d hd => Nat.le_succ_of_le (hc d hd)

theorem repeatM_descend {work : List BlockId} (hwork : ∀ b ∈ work, t.contains b = true)
    (passed : List BlockId) : repeatM (descend t) (work, passed) =
      .ok (passed.reverse ++ work.flatMap (t.subtree t.size)) := by
  have ht := h.threaded
  -- each turn takes one block off the front of what is still to come
  induction hn : (work.flatMap (t.subtree t.size)).length using Nat.strongRecOn
    generalizing work passed with
  | ind n ih =>
      cases work with
      | nil => rw [repeatM_of_inr rfl, List.flatMap_nil, List.append_nil]
      | cons b work =>
          obtain ⟨hb, hwork⟩ := List.forall_mem_cons.mp hwork
          have hnext : ∀ c ∈ t.kidsOf b ++ work, t.contains c = true := by
            intro c hc
            rcases List.mem_append.mp hc with hc | hc
            · exact ht.contains_kid hb hc
            · exact hwork c hc
          have hsplit : (b :: work).flatMap (t.subtree t.size) =
              b :: (t.kidsOf b ++ work).flatMap (t.subtree t.size) := by
            rw [List.flatMap_cons, subtree_eq_cons h hb, List.flatMap_append, List.cons_append]
          have hlt : ((t.kidsOf b ++ work).flatMap (t.subtree t.size)).length < n := by
            rw [← hn, hsplit, List.length_cons]
            exact Nat.lt_succ_self _
          rw [repeatM_of_inl (bind_of_ok (h.lookUp_kids hb)), ih _ hlt hnext _ rfl, hsplit,
            List.reverse_cons, List.append_assoc]
          rfl

theorem dominated_eq : dominated t b = t.dominated b :=
  require_bind_eq fun hb => by
    rw [repeatM_descend h (List.forall_mem_singleton.mpr hb), List.flatMap_singleton]
    rfl

theorem strictlyDominated_eq : strictlyDominated t b = t.strictlyDominated b := by
  rw [strictlyDominated, dominated_eq h, DomTree.dominated, DomTree.strictlyDominated, bind_assoc]
  refine require_bind_eq fun hb => ?_
  rw [subtree_eq_cons h hb]
  rfl

end Downward

end Stepwise

end ControlFlow.DomTree

import ControlFlow.Proofs.Flowgraph.Bypass
import Mathlib.Data.Set.Insert

namespace ControlFlow

open Flowgraph

variable {π : Type} {b c old new s t u v : BlockId}

@[ext]
structure Shape where
  vertices : Set BlockId
  edges : Set (BlockId × BlockId)

namespace Shape

variable {S : Shape} {e e' : BlockId × BlockId}

def addVertex (S : Shape) (b : BlockId) : Shape :=
  { S with vertices := insert b S.vertices }

def addEdges (S : Shape) (es : List (BlockId × BlockId)) : Shape :=
  { S with edges := S.edges ∪ {e | e ∈ es} }

def removeEdge (S : Shape) (e : BlockId × BlockId) : Shape :=
  { S with edges := S.edges \ {e} }

def removeVertex (S : Shape) (b : BlockId) : Shape where
  vertices := S.vertices \ {b}
  edges := {e ∈ S.edges | e.1 ∈ S.vertices \ {b} ∧ e.2 ∈ S.vertices \ {b}}

open Classical in
noncomputable def turn (S : Shape) (e e' : BlockId × BlockId) : Shape :=
  if e ∈ S.edges ∧ e ≠ e' then { S with edges := insert e' (S.edges \ {e}) } else S

theorem turn_of_mem (he : e ∈ S.edges) (hne : e ≠ e') :
    S.turn e e' = { S with edges := insert e' (S.edges \ {e}) } :=
  if_pos ⟨he, hne⟩

theorem turn_of_not (h : ¬(e ∈ S.edges ∧ e ≠ e')) : S.turn e e' = S :=
  if_neg h

theorem removeEdge_of_not_mem (he : e ∉ S.edges) : S.removeEdge e = S := by
  rw [removeEdge, Set.sdiff_singleton_eq_self he]

theorem addEdges_nil : S.addEdges [] = S := by
  ext <;> simp [addEdges]

theorem addEdges_addEdges (es es' : List (BlockId × BlockId)) :
    (S.addEdges es).addEdges es' = S.addEdges (es ++ es') := by
  ext <;> simp [addEdges, or_assoc]

end Shape

namespace Flowgraph

variable {g : Flowgraph π} {f : Block π → Block π} {S : Shape} {flow : Flow}

def shape (g : Flowgraph π) : Shape where
  vertices := {b | g.Live b}
  edges := {e | g.edges.Holds e.1 e.2}

structure Shows (g : Flowgraph π) (S : Shape) : Prop where
  live : ∀ b, g.Live b ↔ b ∈ S.vertices
  succs : ∀ u v, v ∈ g.succs u ↔ (u, v) ∈ S.edges
  preds : ∀ u v, u ∈ g.preds v ↔ (u, v) ∈ S.edges
  index : ∀ u v, g.edges.contains u v = true ↔ (u, v) ∈ S.edges
  nodup : ∀ b, (g.succs b).Nodup ∧ (g.preds b).Nodup

theorem Consistent.shows (h : Consistent g) : g.Shows g.shape where
  live _ := Iff.rfl
  succs _ _ := h.mem_succs_iff
  preds _ _ := h.mem_preds_iff
  index _ _ := Iff.rfl
  nodup b := ⟨h.nodup_succs b, h.nodup_preds b⟩

theorem shape_eq_of (hlive : ∀ b, g.Live b ↔ b ∈ S.vertices)
    (hedges : ∀ u v, g.edges.Holds u v ↔ (u, v) ∈ S.edges) : g.shape = S :=
  Shape.ext (Set.ext hlive) (Set.ext fun e => hedges e.1 e.2)

theorem shape_invalidate : g.invalidate.shape = g.shape := by
  refine shape_eq_of (fun _ => live_invalidate) fun u v => ?_
  rw [edges_invalidate]
  rfl

theorem shape_update : (g.update b f).shape = g.shape :=
  shape_eq_of (fun _ => live_update) fun _ _ => Iff.rfl

theorem shape_append : g.append.shape = g.shape.addVertex g.blocks.size := by
  refine (shape_invalidate (g := g.grow)).trans (shape_eq_of (fun b => ?_) fun _ _ => Iff.rfl)
  rw [live_grow]
  rfl

theorem edges_aim (arm : Arm) : (g.aim b arm t).edges.Holds = including g.edges.Holds b t := by
  rw [aim]
  refine edges_invalidate.trans (EdgeIndex.holds_setFlow.trans ?_)
  rw [including_eq_self (holds_link arm.flow), edges_link, edges_demote]

theorem shape_including {k : Flowgraph π} (hlive : ∀ b, k.Live b ↔ g.Live b)
    (hedges : k.edges.Holds = including g.edges.Holds u v) :
    k.shape = g.shape.addEdges [(u, v)] := by
  refine shape_eq_of hlive fun a c => ?_
  rw [hedges, including, Shape.addEdges, Set.mem_union, Set.mem_ofPred_eq, List.mem_singleton,
    Prod.mk.injEq]
  rfl

theorem shape_link : (g.link u v flow).shape = g.shape.addEdges [(u, v)] :=
  shape_including (fun _ => live_link) edges_link

theorem shape_foldl_link (bs : List BlockId) (s t : BlockId → BlockId) :
    (bs.foldl (fun g b => g.link (s b) (t b) flow) g).shape =
      g.shape.addEdges (bs.map fun b => (s b, t b)) := by
  induction bs generalizing g with
  | nil => exact Shape.addEdges_nil.symm
  | cons b bs ih =>
      rw [List.foldl_cons, ih, shape_link, Shape.addEdges_addEdges, List.map_cons,
        List.singleton_append]

theorem live_aim (arm : Arm) : (g.aim b arm t).Live c ↔ g.Live c :=
  live_invalidate.trans (live_update.trans (live_link.trans (live_demote _)))

theorem shape_aim (arm : Arm) : (g.aim b arm t).shape = g.shape.addEdges [(b, t)] :=
  shape_including (fun _ => live_aim arm) (edges_aim arm)

theorem shape_turned {k : Flowgraph π} (hlive : ∀ b, k.Live b ↔ g.Live b)
    (hedges : k.edges.Holds = including (excluding g.edges.Holds u v) s t)
    (huv : g.edges.Holds u v) (hne : (u, v) ≠ (s, t)) :
    k.shape = g.shape.turn (u, v) (s, t) := by
  rw [Shape.turn_of_mem huv hne]
  refine shape_eq_of hlive fun a c => ?_
  rw [hedges, including, excluding, Set.mem_insert_iff, Set.mem_sdiff, Set.mem_singleton_iff,
    Prod.mk.injEq, Prod.mk.injEq, or_comm]
  rfl

theorem shape_redirectSuccessor (hold : g.edges.Holds b old) (hne : old ≠ new) :
    (g.redirectSuccessor b old new).shape = g.shape.turn (b, old) (b, new) := by
  refine shape_turned (fun _ => ?_) holds_redirectSuccessor hold (by simp [hne])
  exact sameRoles_redirectSuccessor.live_iff

theorem holds_redirectPredecessor : (g.redirectPredecessor b old new).edges.Holds =
    including (excluding g.edges.Holds old b) new b :=
  edges_invalidate.trans EdgeIndex.holds_reindex

theorem live_redirectPredecessor : (g.redirectPredecessor b old new).Live c ↔ g.Live c :=
  live_invalidate.trans (live_update.trans (live_update.trans live_update))

theorem shape_redirectPredecessor (hold : g.edges.Holds old b) (hne : old ≠ new) :
    (g.redirectPredecessor b old new).shape = g.shape.turn (old, b) (new, b) :=
  shape_turned (fun _ => live_redirectPredecessor) holds_redirectPredecessor hold (by simp [hne])

theorem shape_removeEdge : (g.removeEdge u v).shape = g.shape.removeEdge (u, v) := by
  refine shape_invalidate.trans (shape_eq_of (fun _ => ?_) fun a c => ?_)
  · exact live_update.trans live_update
  · rw [EdgeIndex.holds_erase, excluding, Shape.removeEdge, Set.mem_sdiff, Set.mem_singleton_iff,
      Prod.mk.injEq]
    rfl

theorem live_remove {x : Block π} : (g.remove b x).Live c ↔ c ≠ b ∧ g.Live c :=
  live_invalidate.trans live_detach

theorem Consistent.shape_remove (h : Consistent g) {x : Block π} (hx : g.block? b = some x) :
    (g.remove b x).shape = g.shape.removeVertex b := by
  refine shape_eq_of (fun c => ?_) fun a c => ?_
  · rw [live_remove, and_comm]
    rfl
  · rw [h.holds_remove hx]
    refine and_congr_right fun hac => ?_
    obtain ⟨ha, hc⟩ := h.ends a c hac
    exact ⟨fun hne => ⟨⟨ha, hne.1⟩, hc, hne.2⟩, fun hne => ⟨hne.1.2, hne.2.2⟩⟩

end Flowgraph

end ControlFlow

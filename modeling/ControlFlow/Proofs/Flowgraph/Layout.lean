import ControlFlow.Proofs.Flowgraph.Branch
import ControlFlow.Proofs.Flowgraph.History

namespace ControlFlow

open Flowgraph

variable {π : Type} {u v : BlockId} {e : Edge} {flow : Flow} {g : Flowgraph π}

def Edge.ends (e : Edge) : BlockId × BlockId :=
  (e.source, e.target)

theorem EdgeIndex.edge?_eq_some_iff {x : EdgeIndex} : x.edge? u v = some e ↔
    e.source = u ∧ e.target = v ∧ x.label? u v = some ⟨e.flow, e.kind⟩ := by
  rw [edge?, Option.map_eq_some_iff]
  constructor
  · rintro ⟨l, hl, rfl⟩
    exact ⟨rfl, rfl, hl⟩
  · rintro ⟨rfl, rfl, hl⟩
    exact ⟨_, hl, rfl⟩

theorem EdgeIndex.exists_edge {x : EdgeIndex} (h : x.Holds u v) : ∃ e, x.edge? u v = some e := by
  obtain ⟨l, hl⟩ := Option.isSome_iff_exists.mp h
  exact ⟨⟨u, v, l.flow, l.kind⟩, by rw [edge?, hl, Option.map_some]⟩

namespace Flowgraph

def edgeList (g : Flowgraph π) : List Edge :=
  g.ids.flatMap fun b => (g.succs b).filterMap (g.edges.edge? b)

def layoutOf (g : Flowgraph π) (preorder : List BlockId) : Layout :=
  ⟨preorder, g.edgeList, g.edgeList.filter (·.flow.isConditional),
    g.edgeList.filter (!·.flow.isConditional)⟩

theorem arrange_eq : g.arrange =
    match g.entry with
    | some entry => g.layoutOf <$> g.view.preorder entry
    | none => .ok (g.layoutOf []) := by
  rw [arrange]
  cases g.entry with
  | none =>
      dsimp only
      rw [List.partition_eq_filter_filter]
      rfl
  | some entry =>
      dsimp only
      cases g.view.preorder entry with
      | error x => rfl
      | ok p =>
          rw [List.partition_eq_filter_filter]
          rfl

namespace Consistent

variable (h : Consistent g)

include h

theorem exists_arrange : ∃ p, g.arrange = .ok (g.layoutOf p) := by
  rw [arrange_eq]
  cases hentry : g.entry with
  | none => exact ⟨[], rfl⟩
  | some entry =>
      obtain ⟨p, hp, -⟩ := View.exists_preorder (h.sound (h.entry.live hentry)).inRange
      refine ⟨p, ?_⟩
      dsimp only
      rw [hp]
      rfl

theorem mem_edgeList : e ∈ g.edgeList ↔ g.edges.edge? e.source e.target = some e := by
  rw [edgeList, List.mem_flatMap]
  constructor
  · rintro ⟨b, -, he⟩
    obtain ⟨t, -, he⟩ := List.mem_filterMap.mp he
    obtain ⟨rfl, rfl, -⟩ := EdgeIndex.edge?_eq_some_iff.mp he
    exact he
  · intro he
    have hholds : g.edges.Holds e.source e.target := by
      rw [EdgeIndex.Holds, EdgeIndex.contains, (EdgeIndex.edge?_eq_some_iff.mp he).2.2]
      rfl
    refine ⟨e.source, mem_ids.mpr (h.ends _ _ hholds).1, List.mem_filterMap.mpr ?_⟩
    exact ⟨e.target, h.mem_succs_iff.mpr hholds, he⟩

theorem ends_edgeList :
    g.edgeList.map Edge.ends = g.ids.flatMap fun b => (g.succs b).map (b, ·) := by
  rw [edgeList, List.map_flatMap]
  congr 1
  funext b
  rw [List.map_filterMap, ← List.filterMap_eq_map]
  refine List.filterMap_congr fun t ht => ?_
  obtain ⟨e, he⟩ := EdgeIndex.exists_edge (h.mem_succs_iff.mp ht)
  obtain ⟨rfl, rfl, -⟩ := EdgeIndex.edge?_eq_some_iff.mp he
  rw [he]
  rfl

theorem nodup_ends_edgeList : (g.edgeList.map Edge.ends).Nodup := by
  rw [h.ends_edgeList, List.nodup_flatMap]
  constructor
  · intro b _
    exact (h.nodup_succs b).map fun s t hst => (Prod.mk.inj hst).2
  · refine g.nodup_ids.imp fun hne p hp hq => ?_
    obtain ⟨s, -, rfl⟩ := List.mem_map.mp hp
    obtain ⟨t, -, hqt⟩ := List.mem_map.mp hq
    exact hne (Prod.mk.inj hqt).1.symm

theorem exists_mem_edgeList_iff : (∃ k, ⟨u, v, flow, k⟩ ∈ g.edgeList) ↔
    g.edges.Holds u v ∧ g.edges.flow u v = flow := by
  simp only [h.mem_edgeList, EdgeIndex.edge?_eq_some_iff, true_and]
  rw [EdgeIndex.Holds, EdgeIndex.contains, EdgeIndex.flow]
  cases hl : g.edges.label? u v with
  | none => simp
  | some l =>
      constructor
      · rintro ⟨k, hk⟩
        cases hk
        exact ⟨rfl, rfl⟩
      · rintro ⟨-, rfl⟩
        exact ⟨l.kind, rfl⟩

end Consistent

end Flowgraph

end ControlFlow

import ControlFlow.Proofs.Flowgraph.Layout
import ControlFlow.Proofs.Flowgraph.Traces
import ControlFlow.Proofs.Visits

namespace ControlFlow

open Flowgraph

variable {π : Type} {e : Edge} {g g' : Flowgraph π} {l : Layout}

namespace EdgeIndex

variable {x : EdgeIndex}

theorem mem_toList : e ∈ x.toList ↔ x.edge? e.source e.target = some e := by
  rw [toList, List.mem_map, edge?_eq_some_iff]
  constructor
  · rintro ⟨⟨⟨u, v⟩, l⟩, hl, rfl⟩
    exact ⟨rfl, rfl, Std.ExtTreeMap.mem_toList_iff_getElem?_eq_some.mp hl⟩
  · rintro ⟨-, -, hl⟩
    exact ⟨⟨⟨e.source, e.target⟩, ⟨e.flow, e.kind⟩⟩,
      Std.ExtTreeMap.mem_toList_iff_getElem?_eq_some.mpr hl, rfl⟩

theorem nodup_toList : x.toList.Nodup := by
  have hkeys := Std.ExtTreeMap.distinct_keys_toList (t := x.labels)
  rw [toList, List.Nodup, List.pairwise_map]
  refine hkeys.imp fun {p q} hpq heq => hpq ?_
  rw [Std.LawfulEqCmp.compare_eq_iff_eq]
  exact Prod.ext (congrArg Edge.source heq) (congrArg Edge.target heq)

end EdgeIndex

namespace Flowgraph

theorem arrange_eq_of (hview : g'.view = g.view) (hedges : g'.edges = g.edges)
    (hentry : g'.entry = g.entry) : g'.arrange = g.arrange := by
  have hviewed : ∀ k : Flowgraph π, k.edgeList =
      k.view.ids.flatMap fun b => (k.view.succs b).filterMap (k.edges.edge? b) := fun _ => rfl
  have hlayout : g'.layoutOf = g.layoutOf := by
    funext p
    rw [layoutOf, layoutOf, hviewed, hviewed, hview, hedges]
  rw [arrange_eq, arrange_eq, hentry, hview, hlayout]

def Cached (g : Flowgraph π) : Prop :=
  ∀ l, g.layout = some l → g.arrange = .ok l

theorem layout_invalidate : g.invalidate.layout = none := by
  rw [invalidate]
  split <;> rfl

theorem Cached.of_none (h : g.layout = none) : Cached g := by
  intro l hl
  rw [h] at hl
  cases hl

theorem Cached.invalidate (g : Flowgraph π) : Cached g.invalidate :=
  .of_none layout_invalidate

theorem Cached.steady : Steady (π := π) Cached := by
  intro g g' hchange h
  cases hchange with
  | append => exact .invalidate _
  | link _ _ =>
      rw [link]
      split
      · exact h
      · exact .invalidate _
  | designate _ _ _ => exact .invalidate _
  | test => exact .invalidate _
  | push b node =>
      -- the layout stays, and it reads no payload
      intro l hl
      rw [arrange_eq_of (view_push (g := g)) rfl rfl]
      exact h l hl
  | passes => exact .invalidate _
  | remove _ => exact .invalidate _
  | removeEdge _ => exact .invalidate _
  | invalidate => exact .invalidate _
  | record _ _ _ _ => exact .of_none rfl
  | arrange hl =>
      intro l' hl'
      cases hl'
      exact hl

theorem Cached.lasting : Lasting (π := π) Cached := by
  intro g g' hchange h
  cases hchange with
  | plain hplain => exact Cached.steady g g' hplain h
  | aim _ _ _ => exact .invalidate _
  | redirectSuccessor _ _ _ => exact .invalidate _
  | redirectPredecessor _ _ _ => exact .invalidate _

theorem cached_after (passes : Passes) (cs : List (Command π)) : Cached (after passes cs) :=
  (keeps_after Cached.lasting passes (.of_none rfl) cs).1

theorem exec_layout (h : Cached g) (hl : g.arrange = .ok l) :
    Edit.layout.exec g = (.ok l, { g with layout := some l }) := by
  rw [Edit.layout, Edit.exec_bind, Edit.exec_get]
  cases hkept : g.layout with
  | none =>
      simp only [hkept]
      rw [Edit.exec_bind, Edit.exec_ofExcept, hl]
      rfl
  | some l' =>
      cases (h l' hkept).symm.trans hl
      simp only [hkept, Edit.exec_pure]
      rw [← hkept]

theorem Consistent.edgeList_map_some (h : Consistent g) :
    g.edgeList.map some = g.ids.flatMap fun u => (g.succs u).map (g.edges.edge? u) := by
  rw [edgeList, List.map_flatMap]
  congr 1
  funext u
  rw [List.map_filterMap_some_eq_filter_map_isSome, List.filter_eq_self]
  intro o ho
  obtain ⟨v, hv, rfl⟩ := List.mem_map.mp ho
  obtain ⟨e, he⟩ := EdgeIndex.exists_edge (h.mem_succs_iff.mp hv)
  rw [he]
  rfl

theorem Consistent.edgeList_perm (h : Consistent g) : g.edgeList.Perm g.edges.toList := by
  rw [List.perm_ext_iff_of_nodup h.nodup_ends_edgeList.of_map EdgeIndex.nodup_toList]
  exact fun e => h.mem_edgeList.trans EdgeIndex.mem_toList.symm

theorem layout_current_after (passes : Passes) (cs : List (Command π)) :
    let g := after passes cs
    ∃ l, Edit.layout.exec g = (.ok l, { g with layout := some l }) ∧
      l.edges.map some = (g.ids.flatMap fun u => (g.succs u).map (g.edges.edge? u)) ∧
      l.edges.Perm g.edges.toList ∧ (l.edges.map Edge.ends).Nodup ∧
      l.conditional = l.edges.filter (·.flow.isConditional) ∧
      l.unconditional = l.edges.filter (!·.flow.isConditional) ∧
      (l.conditional ++ l.unconditional).Perm l.edges ∧
      (g.entry = none → l.preorder = []) ∧
      ∀ entry, g.entry = some entry → ∀ vs, g.view.Visits ∅ [entry] vs ↔ vs = l.preorder := by
  intro g
  have hg : Consistent g := consistent_after passes cs
  have hread : ∀ p, g.arrange = .ok (g.layoutOf p) → Edit.layout.exec g =
      (.ok (g.layoutOf p), { g with layout := some (g.layoutOf p) }) :=
    fun p hp => exec_layout (cached_after passes cs) hp
  have hsplit : ∀ es : List Edge, (es.filter (·.flow.isConditional) ++
      es.filter (!·.flow.isConditional)).Perm es :=
    fun es => List.filter_append_perm _ es
  rcases Option.eq_none_or_eq_some g.entry with hentry | ⟨entry, hentry⟩
  · have harrange : g.arrange = .ok (g.layoutOf []) := by rw [arrange_eq, hentry]
    refine ⟨g.layoutOf [], hread _ harrange, hg.edgeList_map_some, hg.edgeList_perm,
      hg.nodup_ends_edgeList, rfl, rfl, hsplit _, fun _ => rfl, fun entry he => ?_⟩
    cases hentry.symm.trans he
  · have hsound := hg.sound (hg.entry.live hentry)
    obtain ⟨p, hp, hvisits⟩ := View.exists_visits hsound.inRange hsound.root_lt
    have harrange : g.arrange = .ok (g.layoutOf p) := by
      rw [arrange_eq, hentry]
      dsimp only
      rw [hp]
      rfl
    refine ⟨g.layoutOf p, hread _ harrange, hg.edgeList_map_some, hg.edgeList_perm,
      hg.nodup_ends_edgeList, rfl, rfl, hsplit _, fun hnone => ?_, fun entry' he vs => ?_⟩
    · cases hentry.symm.trans hnone
    · cases hentry.symm.trans he
      exact ⟨fun hvs => hvs.unique hvisits, fun hvs => hvs ▸ hvisits⟩

end Flowgraph

end ControlFlow

import ControlFlow.Numbering
import ControlFlow.Proofs.Route
import Mathlib.Data.List.Chain

namespace ControlFlow

open Relation

def Inverse (num : BlockId → Option Nat) (order : Array BlockId) : Prop :=
  ∀ b i, num b = some i ↔ order[i]? = some b

namespace Inverse

variable {num : BlockId → Option Nat} {order : Array BlockId} {b c : BlockId} {i : Nat}

theorem lt_size (h : Inverse num order) (hb : num b = some i) : i < order.size :=
  (Array.getElem?_eq_some_iff.mp ((h b i).mp hb)).1

theorem inj (h : Inverse num order) (hb : num b = some i) (hc : num c = some i) : b = c :=
  Option.some.inj (((h b i).mp hb).symm.trans ((h c i).mp hc))

theorem push (h : Inverse num order) (hb : num b = none) :
    Inverse (fun c => if b = c then some order.size else num c) (order.push b) := by
  intro c i
  rw [Array.getElem?_push]
  by_cases hi : i = order.size
  · subst hi
    simp only [if_true, Option.some.injEq]
    split
    · simp_all
    · rename_i hbc
      have hnone : num c ≠ some order.size := fun e => Nat.lt_irrefl _ (h.lt_size e)
      simp [hbc, hnone]
  · rw [if_neg hi, ← h c i]
    by_cases hbc : b = c
    · subst hbc
      simp [hb, Ne.symm hi]
    · simp only [if_neg hbc]

theorem nodup (h : Inverse num order) : order.toList.Nodup := by
  refine List.pairwise_iff_getElem.mpr ?_
  intro i j hi hj hij heq
  have hnum : ∀ k (hk : k < order.toList.length), num order.toList[k] = some k := by
    intro k hk
    rw [h, ← Array.getElem?_toList, List.getElem?_eq_getElem hk]
  have hi' := hnum i hi
  rw [heq, hnum j hj] at hi'
  exact hij.ne' (Option.some.inj hi')

theorem empty : Inverse (fun _ => none) #[] := by
  intro b i
  simp

end Inverse

namespace Numbering

variable {N : Numbering} {b c u v p : BlockId} {i j k l : Nat}

theorem pre?_enter (hb : b < N.pres.size) (parent : Option BlockId) (c : BlockId) :
    (N.enter b parent).pre? c = if b = c then some N.preorder.size else N.pre? c := by
  simp only [pre?, enter, Array.getElem?_setIfInBounds]
  split <;> simp_all

theorem parent?_enter (hb : b < N.parents.size) (parent : Option BlockId) (c : BlockId) :
    (N.enter b parent).parent? c = if b = c then parent else N.parent? c := by
  simp only [parent?, enter, Array.getElem?_setIfInBounds]
  split <;> simp_all

theorem post?_leave (hb : b < N.posts.size) (c : BlockId) :
    (N.leave b).post? c = if b = c then some N.postorder.size else N.post? c := by
  simp only [post?, leave, Array.getElem?_setIfInBounds]
  split <;> simp_all

theorem contains_iff : N.contains b = true ↔ ∃ i, N.pre? b = some i := by
  rw [contains, Option.isSome_iff_exists]

end Numbering

def Frame.restOf : List Frame → BlockId → List BlockId
  | [], _ => []
  | f :: fs, b => if f.block = b then f.rest else restOf fs b

theorem Frame.restOf_eq_nil {stack : List Frame} {b : BlockId}
    (h : b ∉ stack.map (·.block)) : Frame.restOf stack b = [] := by
  induction stack with
  | nil => rfl
  | cons f fs ih =>
      simp only [List.map_cons, List.mem_cons, not_or] at h
      rw [Frame.restOf, if_neg (Ne.symm h.1)]
      exact ih h.2

namespace Numbering

def crossed (N : Numbering) (u : BlockId) : List BlockId :=
  (N.crossings.toList.filter (·.source == u)).map (·.target)

def discover (N : Numbering) (u v : BlockId) (kind : EdgeClass) : Numbering :=
  (N.cross u v kind).enter v (some u)

theorem crossed_cross (N : Numbering) (u v w : BlockId) (kind : EdgeClass) :
    (N.cross u v kind).crossed w = if u = w then N.crossed w ++ [v] else N.crossed w := by
  simp only [crossed, cross, Array.toList_push, List.filter_append, List.map_append]
  by_cases h : u = w <;> simp [h]

/-- The numbering while the blocks of `stack` are open, the innermost first. -/
structure Running (g : View) (root : BlockId) (stack : List Frame) (N : Numbering) : Prop where
  root_eq : N.root = root
  sizes : N.pres.size = g.bound ∧ N.posts.size = g.bound ∧ N.parents.size = g.bound
  pre : Inverse N.pre? N.preorder
  post : Inverse N.post? N.postorder
  root_first : N.pre? root = some 0
  parent_root : N.parent? root = none
  has_parent : ∀ b i, N.pre? b = some i → b ≠ root → ∃ p, N.parent? b = some p
  parent_edge : ∀ b p, N.parent? b = some p → g.Step p b
  parent_pre : ∀ b p, N.parent? b = some p → ∃ i j, N.pre? p = some i ∧ N.pre? b = some j ∧ i < j
  parent_post : ∀ b p k, N.parent? b = some p → N.post? p = some k →
    ∃ l, N.post? b = some l ∧ l < k
  closed : ∀ b k, N.post? b = some k → ∃ i, N.pre? b = some i
  open_iff : ∀ b, b ∈ stack.map (·.block) ↔ (∃ i, N.pre? b = some i) ∧ N.post? b = none
  chain : (stack.map (·.block)).IsChain fun c p => N.parent? c = some p
  crossed : ∀ u i, N.pre? u = some i → N.crossed u ++ Frame.restOf stack u = g.succs u
  crossings : ∀ e ∈ N.crossings, (∃ i, N.pre? e.source = some i) ∧ ∃ i, N.pre? e.target = some i
  nested : ∀ u v i j, N.pre? u = some i → N.pre? v = some j → i ≤ j →
    (N.post? u = none ∨ ∃ k l, N.post? u = some k ∧ N.post? v = some l ∧ l ≤ k) →
    Above N.parent? u v
  down : ∀ u v i j k, g.Step u v → N.pre? u = some i → N.pre? v = some j → i < j →
    N.post? u = some k → ∃ l, N.post? v = some l ∧ l < k

namespace Running

variable {g : View} {root b c u v p : BlockId} {vs : List BlockId} {stack : List Frame}
  {N : Numbering} {i j k l : Nat}

theorem pre_lt (h : Running g root stack N) (hb : N.pre? b = some i) : b < g.bound := by
  rw [← h.sizes.1]
  rw [pre?, Option.join_eq_some_iff] at hb
  exact (Array.getElem?_eq_some_iff.mp hb).1

theorem rank (h : Running g root stack N) (x y : BlockId) (hxy : N.parent? x = some y) :
    (N.pre? y).getD 0 < (N.pre? x).getD 0 := by
  obtain ⟨i, j, hi, hj, hij⟩ := h.parent_pre x y hxy
  simpa [hi, hj] using hij

theorem pre_le (h : Running g root stack N) (hab : Above N.parent? u v) (hu : N.pre? u = some i)
    (hv : N.pre? v = some j) : i ≤ j := by
  simpa [hu, hv] using hab.rank_le h.rank

theorem above_top (h : Running g root (⟨u, vs⟩ :: stack) N) (hb : b ∈ stack.map (·.block)) :
    Above N.parent? b u ∧ b ≠ u := by
  have hchain := h.chain
  rw [List.map_cons] at hchain
  have hstep : ∃ p, N.parent? u = some p ∧ Above N.parent? b p := by
    clear h
    generalize stack.map (·.block) = bs at hb hchain
    simp only at hchain
    induction bs generalizing u with
    | nil => cases hb
    | cons c bs ih =>
        obtain ⟨huc, hchain⟩ := List.isChain_cons_cons.mp hchain
        rcases List.mem_cons.mp hb with rfl | hb
        · exact ⟨b, huc, .refl b⟩
        · obtain ⟨p, hp, hbp⟩ := ih hb hchain
          exact ⟨c, huc, .of_up hp hbp⟩
  obtain ⟨p, hp, hbp⟩ := hstep
  refine ⟨.of_up hp hbp, ?_⟩
  rintro rfl
  exact Nat.lt_irrefl _ (Nat.lt_of_le_of_lt (hbp.rank_le h.rank) (h.rank _ _ hp))

theorem top (h : Running g root (⟨u, vs⟩ :: stack) N) :
    (∃ i, N.pre? u = some i) ∧ N.post? u = none :=
  (h.open_iff u).mp List.mem_cons_self

theorem closed_of_top_lt (h : Running g root (⟨u, vs⟩ :: stack) N) (hu : N.pre? u = some i)
    (hv : N.pre? v = some j) (hij : i < j) : ∃ l, N.post? v = some l := by
  cases hl : N.post? v with
  | some l => exact ⟨l, rfl⟩
  | none =>
      have hle : j ≤ i := by
        rcases List.mem_cons.mp ((h.open_iff v).mpr ⟨⟨j, hv⟩, hl⟩) with rfl | hmem
        · rw [hu] at hv
          exact (Option.some.inj hv).ge
        · exact h.pre_le (h.above_top hmem).1 hv hu
      omega

section Leave

variable (h : Running g root (⟨u, []⟩ :: stack) N)

include h

theorem post?_top (b : BlockId) :
    (N.leave u).post? b = if u = b then some N.postorder.size else N.post? b := by
  obtain ⟨⟨i, hi⟩, -⟩ := h.top
  refine post?_leave ?_ b
  rw [h.sizes.2.1]
  exact h.pre_lt hi

theorem post?_leave_of (hl : N.post? b = some l) : (N.leave u).post? b = some l := by
  rw [h.post?_top, if_neg, hl]
  rintro rfl
  simp [h.top.2] at hl

theorem post_leave_lt (hu : N.pre? u = some i) (hb : N.pre? b = some j) (hij : i < j) :
    ∃ l, (N.leave u).post? b = some l ∧ l < N.postorder.size := by
  obtain ⟨l, hl⟩ := h.closed_of_top_lt hu hb hij
  exact ⟨l, h.post?_leave_of hl, h.post.lt_size hl⟩

theorem top_not_mem : u ∉ stack.map (·.block) :=
  fun hmem => (h.above_top hmem).2 rfl

theorem open_leave_iff (b : BlockId) :
    b ∈ stack.map (·.block) ↔ (∃ i, N.pre? b = some i) ∧ (N.leave u).post? b = none := by
  have hold := h.open_iff b
  rw [List.map_cons, List.mem_cons] at hold
  have hpostb : (N.leave u).post? b = none ↔ u ≠ b ∧ N.post? b = none := by
    rw [h.post?_top]
    split <;> simp_all
  rw [hpostb]
  constructor
  · intro hb
    obtain ⟨hnum, hnone⟩ := hold.mp (.inr hb)
    exact ⟨hnum, fun e => h.top_not_mem (e ▸ hb), hnone⟩
  · rintro ⟨hnum, hne, hnone⟩
    exact (hold.mpr ⟨hnum, hnone⟩).resolve_left (Ne.symm hne)

theorem parent_post_leave (hp : N.parent? b = some p) (hk : (N.leave u).post? p = some k) :
    ∃ l, (N.leave u).post? b = some l ∧ l < k := by
  rw [h.post?_top] at hk
  split at hk
  · rename_i hup
    subst hup
    obtain ⟨i, j, hi, hj, hij⟩ := h.parent_pre b u hp
    cases hk
    exact h.post_leave_lt hi hj hij
  · obtain ⟨l, hl, hlk⟩ := h.parent_post b p k hp hk
    exact ⟨l, h.post?_leave_of hl, hlk⟩

theorem nested_leave {w : BlockId} (hw : N.pre? w = some i) (hv : N.pre? v = some j) (hij : i ≤ j)
    (hclosed : (N.leave u).post? w = none ∨
      ∃ k l, (N.leave u).post? w = some k ∧ (N.leave u).post? v = some l ∧ l ≤ k) :
    Above N.parent? w v := by
  refine h.nested w v i j hw hv hij ?_
  by_cases huw : u = w
  · exact .inl (huw ▸ h.top.2)
  · simp only [h.post?_top, if_neg huw] at hclosed
    refine hclosed.imp_right ?_
    rintro ⟨k, l, hk, hl, hlk⟩
    split at hl
    · cases hl
      exact absurd (h.post.lt_size hk) (Nat.not_lt.mpr hlk)
    · exact ⟨k, l, hk, hl, hlk⟩

theorem down_leave {w : BlockId} (hstep : g.Step w v) (hw : N.pre? w = some i)
    (hv : N.pre? v = some j) (hij : i < j) (hk : (N.leave u).post? w = some k) :
    ∃ l, (N.leave u).post? v = some l ∧ l < k := by
  rw [h.post?_top] at hk
  split at hk
  · rename_i huw
    subst huw
    cases hk
    exact h.post_leave_lt hw hv hij
  · obtain ⟨l, hl, hlk⟩ := h.down w v i j k hstep hw hv hij hk
    exact ⟨l, h.post?_leave_of hl, hlk⟩

theorem leave : Running g root stack (N.leave u) := by
  have hsizes : (N.leave u).posts.size = g.bound := by
    simpa only [Numbering.leave, Array.size_setIfInBounds] using h.sizes.2.1
  refine ⟨h.root_eq, ⟨h.sizes.1, hsizes, h.sizes.2.2⟩, h.pre, ?_, h.root_first, h.parent_root,
    h.has_parent, h.parent_edge, h.parent_pre, fun _ _ _ => h.parent_post_leave, ?_,
    h.open_leave_iff, h.chain.tail, ?_, h.crossings, fun _ _ _ _ => h.nested_leave,
    fun _ _ _ _ _ => h.down_leave⟩
  · rw [show (N.leave u).post? = _ from funext h.post?_top]
    exact h.post.push h.top.2
  · intro b k hk
    rw [h.post?_top] at hk
    split at hk
    · rename_i hub
      exact hub ▸ h.top.1
    · exact h.closed b k hk
  · intro w i hw
    have hold := h.crossed w i hw
    rw [Frame.restOf] at hold
    split at hold
    · rename_i huw
      rw [Frame.restOf_eq_nil (huw ▸ h.top_not_mem)]
      exact hold
    · exact hold

end Leave

theorem crossed_push (h : Running g root (⟨u, v :: vs⟩ :: stack) N) (kind : EdgeClass) {w : BlockId}
    (hw : N.pre? w = some i) :
    (N.cross u v kind).crossed w ++ Frame.restOf (⟨u, vs⟩ :: stack) w = g.succs w := by
  have hold := h.crossed w i hw
  rw [Frame.restOf] at hold ⊢
  rw [crossed_cross]
  split
  · rename_i huw
    rw [if_pos huw] at hold
    simpa only [List.append_assoc, List.cons_append, List.nil_append] using hold
  · rename_i huw
    rwa [if_neg huw] at hold

theorem skip (h : Running g root (⟨u, v :: vs⟩ :: stack) N) (kind : EdgeClass)
    (hv : N.pre? v = some j) : Running g root (⟨u, vs⟩ :: stack) (N.cross u v kind) := by
  refine ⟨h.root_eq, h.sizes, h.pre, h.post, h.root_first, h.parent_root, h.has_parent,
    h.parent_edge, h.parent_pre, h.parent_post, h.closed, h.open_iff, h.chain,
    fun w i hw => h.crossed_push kind hw, ?_, h.nested, h.down⟩
  intro e he
  rw [cross, Array.mem_push] at he
  rcases he with he | rfl
  · exact h.crossings e he
  · exact ⟨h.top.1, j, hv⟩

section Descend

variable (h : Running g root (⟨u, v :: vs⟩ :: stack) N) (hv : N.pres[v]? = some none)
  {kind : EdgeClass} {w x : BlockId}

include h hv

omit h in
theorem pre?_discover (c : BlockId) :
    (N.discover u v kind).pre? c = if v = c then some N.preorder.size else N.pre? c :=
  pre?_enter (N := N.cross u v kind) (Array.getElem?_eq_some_iff.mp hv).1 (some u) c

theorem parent?_discover (c : BlockId) :
    (N.discover u v kind).parent? c = if v = c then some u else N.parent? c := by
  refine parent?_enter (N := N.cross u v kind) ?_ (some u) c
  have hlt : v < N.pres.size := (Array.getElem?_eq_some_iff.mp hv).1
  rw [h.sizes.1, ← h.sizes.2.2] at hlt
  exact hlt

omit h in
theorem pre?_new : N.pre? v = none := by
  rw [pre?, hv]
  rfl

theorem post?_new : N.post? v = none := by
  cases hl : N.post? v with
  | none => rfl
  | some l =>
      obtain ⟨i, hi⟩ := h.closed v l hl
      simp [pre?_new hv] at hi

omit h in
theorem new_ne (hc : N.pre? c = some i) : v ≠ c := by
  rintro rfl
  simp [pre?_new hv] at hc

omit h in
theorem pre?_discover_of (hc : N.pre? c = some i) : (N.discover u v kind).pre? c = some i := by
  rw [pre?_discover hv, if_neg (new_ne hv hc), hc]

omit h in
theorem pre_of_discover (hc : (N.discover u v kind).pre? c = some i) (hvc : v ≠ c) :
    N.pre? c = some i := by
  rwa [pre?_discover hv, if_neg hvc] at hc

omit h in
theorem exists_pre_discover_iff (c : BlockId) :
    (∃ i, (N.discover u v kind).pre? c = some i) ↔ v = c ∨ ∃ i, N.pre? c = some i := by
  rw [pre?_discover hv]
  split <;> simp_all

theorem parent?_discover_of (hxw : N.parent? x = some w) :
    (N.discover u v kind).parent? x = some w := by
  rw [h.parent?_discover hv, if_neg, hxw]
  rintro rfl
  obtain ⟨i, j, hi, hj, hij⟩ := h.parent_pre v w hxw
  simp [pre?_new hv] at hj

omit hv in
theorem step_top : g.Step u v := by
  obtain ⟨i, hi⟩ := h.top.1
  have hmem := h.crossed u i hi
  rw [Frame.restOf, if_pos rfl] at hmem
  rw [View.Step, ← hmem]
  simp

theorem parent_pre_discover (hp : (N.discover u v kind).parent? b = some p) :
    ∃ i j, (N.discover u v kind).pre? p = some i ∧ (N.discover u v kind).pre? b = some j ∧
      i < j := by
  rw [h.parent?_discover hv] at hp
  split at hp
  · rename_i hvb
    cases hp
    subst hvb
    obtain ⟨i, hi⟩ := h.top.1
    refine ⟨i, _, pre?_discover_of hv hi, ?_, h.pre.lt_size hi⟩
    rw [pre?_discover hv, if_pos rfl]
  · obtain ⟨i, j, hi, hj, hij⟩ := h.parent_pre b p hp
    exact ⟨i, j, pre?_discover_of hv hi, pre?_discover_of hv hj, hij⟩

theorem open_discover_iff (b : BlockId) :
    b ∈ (⟨v, g.succs v⟩ :: ⟨u, vs⟩ :: stack : List Frame).map (·.block) ↔
      (∃ i, (N.discover u v kind).pre? b = some i) ∧ N.post? b = none := by
  have hb := h.open_iff b
  rw [exists_pre_discover_iff hv, List.map_cons, List.mem_cons]
  constructor
  · rintro (rfl | hmem)
    · exact ⟨.inl rfl, h.post?_new hv⟩
    · exact ⟨.inr (hb.mp hmem).1, (hb.mp hmem).2⟩
  · rintro ⟨rfl | hnum, hnone⟩
    · exact .inl rfl
    · exact .inr (hb.mpr ⟨hnum, hnone⟩)

theorem crossed_discover (hw : (N.discover u v kind).pre? w = some i) :
    (N.cross u v kind).crossed w ++ Frame.restOf (⟨v, g.succs v⟩ :: ⟨u, vs⟩ :: stack) w =
      g.succs w := by
  rw [Frame.restOf]
  rcases (exists_pre_discover_iff hv w).mp ⟨i, hw⟩ with rfl | ⟨j, hj⟩
  · obtain ⟨k, hk⟩ := h.top.1
    have hnil : N.crossed v = [] := by
      rw [Numbering.crossed, List.map_eq_nil_iff, List.filter_eq_nil_iff]
      intro e he hsource
      obtain ⟨i, hi⟩ := (h.crossings e (Array.mem_toList_iff.mp he)).1
      simp only [beq_iff_eq] at hsource
      simp [hsource, pre?_new hv] at hi
    rw [if_pos rfl, crossed_cross, if_neg (new_ne hv hk).symm, hnil,
      List.nil_append]
  · rw [if_neg (new_ne hv hj)]
    exact h.crossed_push kind hj

theorem crossings_discover {e : Crossing} (he : e ∈ N.crossings.push ⟨u, v, kind⟩) :
    (∃ i, (N.discover u v kind).pre? e.source = some i) ∧
      ∃ i, (N.discover u v kind).pre? e.target = some i := by
  rw [exists_pre_discover_iff hv, exists_pre_discover_iff hv]
  rcases Array.mem_push.mp he with he | rfl
  · exact ⟨.inr (h.crossings e he).1, .inr (h.crossings e he).2⟩
  · exact ⟨.inr h.top.1, .inl rfl⟩

theorem above_new (hw : N.pre? w = some i) (hopen : N.post? w = none) :
    Above (N.discover u v kind).parent? w v := by
  have hwu : Above N.parent? w u := by
    rcases List.mem_cons.mp ((h.open_iff w).mpr ⟨⟨i, hw⟩, hopen⟩) with rfl | hmem
    · exact .refl w
    · exact (h.above_top hmem).1
  refine .of_up ?_ (hwu.mono fun x y => h.parent?_discover_of hv)
  rw [h.parent?_discover hv, if_pos rfl]

theorem nested_discover (hw : (N.discover u v kind).pre? w = some i)
    (hx : (N.discover u v kind).pre? x = some j) (hij : i ≤ j)
    (hclosed : N.post? w = none ∨ ∃ k l, N.post? w = some k ∧ N.post? x = some l ∧ l ≤ k) :
    Above (N.discover u v kind).parent? w x := by
  by_cases hvx : v = x
  · subst hvx
    by_cases hvw : v = w
    · exact hvw ▸ .refl v
    · refine h.above_new hv (pre_of_discover hv hw hvw) ?_
      rcases hclosed with hnone | ⟨k, l, hk, hl, _⟩
      · exact hnone
      · simp [h.post?_new hv] at hl
  · have hx := pre_of_discover hv hx hvx
    by_cases hvw : v = w
    · rw [← hvw, pre?_discover hv, if_pos rfl] at hw
      cases hw
      exact absurd (h.pre.lt_size hx) (Nat.not_lt.mpr hij)
    · have hw := pre_of_discover hv hw hvw
      exact (h.nested w x i j hw hx hij hclosed).mono fun y z => h.parent?_discover_of hv

omit hv in
theorem exists_pre_of_closed (hstep : g.Step w x) (hk : N.post? w = some k) :
    ∃ j, N.pre? x = some j := by
  obtain ⟨i, hi⟩ := h.closed w k hk
  have hall := h.crossed w i hi
  have hnot : w ∉ (⟨u, v :: vs⟩ :: stack : List Frame).map (·.block) := by
    intro hmem
    simp [((h.open_iff w).mp hmem).2] at hk
  rw [Frame.restOf_eq_nil hnot, List.append_nil] at hall
  rw [View.Step, ← hall, Numbering.crossed, List.mem_map] at hstep
  obtain ⟨e, he, rfl⟩ := hstep
  exact (h.crossings e (Array.mem_toList_iff.mp (List.mem_filter.mp he).1)).2

theorem down_discover (hstep : g.Step w x) (hw : (N.discover u v kind).pre? w = some i)
    (hx : (N.discover u v kind).pre? x = some j) (hij : i < j) (hk : N.post? w = some k) :
    ∃ l, N.post? x = some l ∧ l < k := by
  have hold : ∀ {c n}, (∃ m, N.pre? c = some m) → (N.discover u v kind).pre? c = some n →
      N.pre? c = some n := by
    rintro c n ⟨m, hm⟩ hn
    exact pre_of_discover hv hn (new_ne hv hm)
  exact h.down w x i j k hstep (hold (h.closed w k hk) hw)
    (hold (h.exists_pre_of_closed hstep hk) hx) hij hk

theorem descend (kind : EdgeClass) :
    Running g root (⟨v, g.succs v⟩ :: ⟨u, vs⟩ :: stack) (N.discover u v kind) := by
  have hsizes : (N.discover u v kind).pres.size = g.bound ∧
      (N.discover u v kind).posts.size = g.bound ∧
      (N.discover u v kind).parents.size = g.bound := by
    simpa only [discover, enter, cross, Array.size_setIfInBounds] using h.sizes
  refine ⟨h.root_eq, hsizes, ?_, h.post, pre?_discover_of hv h.root_first,
    ?_, ?_, ?_, fun _ _ => h.parent_pre_discover hv, ?_,
    ?_, h.open_discover_iff hv, ?_, fun _ _ => h.crossed_discover hv,
    fun _ => h.crossings_discover hv, fun _ _ _ _ => h.nested_discover hv,
    fun _ _ _ _ _ => h.down_discover hv⟩
  · rw [show (N.discover u v kind).pre? = _ from funext (pre?_discover hv)]
    exact h.pre.push (pre?_new hv)
  · rw [h.parent?_discover hv, if_neg (new_ne hv h.root_first)]
    exact h.parent_root
  · intro b i hb hbr
    rw [h.parent?_discover hv]
    split
    · exact ⟨u, rfl⟩
    · rename_i hvb
      exact h.has_parent b i (pre_of_discover hv hb hvb) hbr
  · intro b p hp
    rw [h.parent?_discover hv] at hp
    split at hp
    · rename_i hvb
      cases hp
      exact hvb ▸ h.step_top
    · exact h.parent_edge b p hp
  · intro b p k hp hk
    rw [h.parent?_discover hv] at hp
    split at hp
    · cases hp
      have hk : N.post? u = some k := hk
      simp [h.top.2] at hk
    · exact h.parent_post b p k hp hk
  · intro b k hk
    exact (exists_pre_discover_iff hv b).mpr (.inr (h.closed b k hk))
  · have hchain : ((⟨u, vs⟩ :: stack : List Frame).map (·.block)).IsChain
        fun c p => (N.discover u v kind).parent? c = some p :=
      h.chain.imp fun x y => h.parent?_discover_of hv
    refine List.isChain_cons_cons.mpr ⟨?_, hchain⟩
    rw [h.parent?_discover hv, if_pos rfl]

end Descend

end Running

end Numbering

end ControlFlow

import ControlFlow.Flowgraph.Analysis

/-!
Edits are made of few raw changes, each under a condition that the edit has checked. What every raw
change keeps, the edits keep.
-/

namespace ControlFlow

variable {π α β : Type}

namespace Flowgraph

variable {g : Flowgraph π} {b c u v : BlockId}

def Live (g : Flowgraph π) (b : BlockId) : Prop :=
  ∃ x, g.block? b = some x

instance : Decidable (g.Live b) :=
  decidable_of_iff ((g.block? b).isSome = true) Option.isSome_iff_exists

theorem contains_succs_iff :
    (g.block? b).any (·.succs.contains c) = true ↔ c ∈ g.succs b := by
  rw [succs]
  cases g.block? b <;> simp

theorem contains_preds_iff :
    (g.block? b).any (·.preds.contains c) = true ↔ c ∈ g.preds b := by
  rw [preds]
  cases g.block? b <;> simp

theorem firstMissing?_eq_none_iff {bs : List BlockId} :
    g.firstMissing? bs = none ↔ ∀ b ∈ bs, g.Live b := by
  rw [firstMissing?, List.find?_eq_none]
  refine forall₂_congr fun b _ => ?_
  rw [Option.isNone_iff_eq_none, Live, ← Option.ne_none_iff_exists']

theorem live_update {f : Block π → Block π} : (g.update b f).Live c ↔ g.Live c := by
  rw [Live, Live, block?_update]
  split
  · cases g.block? c <;> simp
  · rfl

theorem live_invalidate : g.invalidate.Live c ↔ g.Live c := by
  rw [Live, Live, block?_invalidate]
  split
  · rfl
  · cases g.block? c <;> simp

theorem live_link {flow : Flow} : (g.link u v flow).Live c ↔ g.Live c := by
  rw [link]
  split
  · rfl
  · rw [live_invalidate]
    exact live_update.trans live_update

def grow (g : Flowgraph π) : Flowgraph π :=
  { g with blocks := g.blocks.push (some .blank), live := g.live + 1 }

theorem block?_grow :
    g.grow.block? c = if c = g.blocks.size then some .blank else g.block? c := by
  simp only [block?, grow, Array.getElem?_push]
  split <;> rfl

theorem not_live_size : ¬g.Live g.blocks.size := by
  rintro ⟨x, hx⟩
  simp [block?] at hx

theorem live_grow : g.grow.Live c ↔ c = g.blocks.size ∨ g.Live c := by
  rw [Live, block?_grow]
  split
  · rename_i hc
    simp [hc]
  · rename_i hc
    simp [hc, Live]

theorem live_append : g.append.Live c ↔ c = g.blocks.size ∨ g.Live c :=
  live_invalidate.trans live_grow

def marksOf (r : Results) (b : BlockId) : Option Marks :=
  match r.numbering.pre? b, r.numbering.post? b, r.numbering.rpost? b with
  | some pre, some post, some rpost =>
      some
        { pre, post, rpost
          parent := r.numbering.parent? b
          semi := r.dominators.semi? b
          idom := r.dominators.idom? b
          children := r.dominators.kidsOf b }
  | _, _, _ => none

/-- What `Edit.record` makes of a graph where it is not refused. -/
def record (g : Flowgraph π) (r : Results) : Flowgraph π :=
  { g with
    blocks := g.blocks.mapIdx fun b o =>
      o.map fun x => { x with marks := (marksOf r b).or x.marks }
    edges := r.numbering.crossings.foldl (fun x c => x.setKind c.source c.target c.kind) g.edges
    results := some r
    layout := none }

/-- The raw changes that move no arm of a branch, each with what is known where it is made. -/
inductive Plain : Flowgraph π → Flowgraph π → Prop
  | append (g : Flowgraph π) : Plain g g.append
  | link {g : Flowgraph π} {u v : BlockId} (hu : g.Live u) (hv : g.Live v) :
      Plain g (g.link u v .unconditional)
  | designate {g : Flowgraph π} (s : Sentinel) {b : BlockId} (hb : g.Live b)
      (hfree : ∀ c, g.sentinel? s = some c → c = b) : Plain g (g.designate s b)
  | test (g : Flowgraph π) (b : BlockId) :
      Plain g (g.update b ({ · with isTest := true })).invalidate
  | push (g : Flowgraph π) (b : BlockId) (node : π) : Plain g (g.update b (·.push node))
  | passes (g : Flowgraph π) (p : Passes) : Plain g { g with passes := p }.invalidate
  | remove {g : Flowgraph π} {b : BlockId} {x : Block π} (hx : g.block? b = some x) :
      Plain g (g.remove b x)
  | removeEdge {g : Flowgraph π} {u v : BlockId} (h : v ∈ g.succs u) : Plain g (g.removeEdge u v)
  | invalidate (g : Flowgraph π) : Plain g g.invalidate
  | record {g : Flowgraph π} {entry exit : BlockId} {r : Results} (hdirty : g.isDirty = true)
      (hentry : g.entry = some entry) (hexit : g.exit = some exit)
      (hr : g.compute entry exit = .ok r) : Plain g (g.record r)
  | arrange {g : Flowgraph π} {l : Layout} (hl : g.arrange = .ok l) :
      Plain g { g with layout := some l }

inductive Change : Flowgraph π → Flowgraph π → Prop
  | plain {g g' : Flowgraph π} (h : Plain g g') : Change g g'
  | aim {g : Flowgraph π} {b target : BlockId} (arm : Arm) (hb : g.Live b)
      (htarget : g.Live target) : Change g (g.aim b arm target)
  | redirectSuccessor {g : Flowgraph π} {b old new : BlockId} (hold : old ∈ g.succs b)
      (hne : old ≠ new) (hnew : g.Live new) : Change g (g.redirectSuccessor b old new)
  | redirectPredecessor {g : Flowgraph π} {b old new : BlockId} (hold : old ∈ g.preds b)
      (hne : old ≠ new) (hnew : g.Live new) : Change g (g.redirectPredecessor b old new)

def Steady (P : Flowgraph π → Prop) : Prop :=
  ∀ g g', Plain g g' → P g → P g'

def Lasting (P : Flowgraph π → Prop) : Prop :=
  ∀ g g', Change g g' → P g → P g'

theorem Lasting.steady {P : Flowgraph π → Prop} (hP : Lasting P) : Steady P :=
  fun g g' h => hP g g' (.plain h)

end Flowgraph

namespace Edit

open Flowgraph

variable {P : Flowgraph π → Prop} {e : Edit π α} {f : α → Edit π β} {g : Flowgraph π}
  {b old new : BlockId}

theorem exec_bind_of_ok {a : α} {h : Flowgraph π} (he : e.exec g = (.ok a, h)) :
    (e >>= f).exec g = (f a).exec h := by
  rw [exec_bind, he]

theorem exec_requireLive_of_some {x : Block π} (hx : g.block? b = some x) :
    (requireLive b).exec g = (.ok x, g) := by
  rw [exec_requireLive, hx]

theorem exec_requireAll_of_live {bs : List BlockId} (h : ∀ b ∈ bs, g.Live b) :
    (requireAll bs).exec g = (.ok (), g) := by
  rw [exec_requireAll, firstMissing?_eq_none_iff.mpr h]

theorem exec_addBlock {bs : List BlockId} (hlive : ∀ b ∈ bs, g.Live b) : (addBlock bs).exec g =
    (.ok g.blocks.size,
      bs.foldl (fun k p => k.link p g.blocks.size .unconditional) g.append) :=
  exec_bind_of_ok (exec_requireAll_of_live hlive)

theorem exec_addBlock_nil : (addBlock []).exec g = (.ok g.blocks.size, g.append) :=
  rfl

theorem exec_setArm (arm : Arm) {target : BlockId} (htarget : g.Live target) (hb : g.Live b) :
    (setArm arm b target).exec g = (.ok (), g.aim b arm target) :=
  exec_bind_of_ok (exec_requireAll_of_live (by simp [htarget, hb]))

theorem exec_addArm (arm : Arm) (hb : g.Live b) : (addArm arm b).exec g =
    (.ok g.blocks.size, g.append.aim b arm g.blocks.size) := by
  rw [addArm, exec_bind_of_ok (exec_requireAll_of_live (by simpa using hb)),
    exec_bind_of_ok exec_addBlock_nil,
    exec_bind_of_ok (exec_setArm arm (live_append.mpr (.inl rfl)) (live_append.mpr (.inr hb)))]
  rfl

theorem exec_removeBlock {x : Block π} (hx : g.block? b = some x) :
    (removeBlock b).exec g = (.ok (), g.remove b x) :=
  exec_bind_of_ok (exec_requireLive_of_some hx)

theorem exec_requireAll_bind_snd {bs : List BlockId} {e : Edit π α} :
    ((requireAll bs >>= fun _ => e).exec g).2 =
      if ∀ b ∈ bs, g.Live b then (e.exec g).2 else g := by
  rw [exec_bind, exec_requireAll]
  cases hm : g.firstMissing? bs with
  | none => rw [if_pos (firstMissing?_eq_none_iff.mp hm)]
  | some b =>
      rw [if_neg]
      intro hlive
      rw [firstMissing?_eq_none_iff.mpr hlive] at hm
      cases hm

theorem exec_redirect {q : Block π → Bool} {k : Flowgraph π → Flowgraph π} (hnew : g.Live new)
    (hne : old ≠ new) (hq : (g.block? b).any q = true) :
    (requireAll [new] >>= fun _ => if old = new then pure () else
      requireLive b >>= fun x => if q x then modify k else pure () : Edit π Unit).exec g =
      (.ok (), k g) := by
  rw [exec_bind_of_ok (exec_requireAll_of_live (by simpa using hnew)), if_neg hne]
  cases hx : g.block? b with
  | none => simp [hx] at hq
  | some x =>
      rw [hx, Option.any_some] at hq
      rw [exec_bind_of_ok (exec_requireLive_of_some hx), if_pos hq, exec_modify]

theorem exec_redirect_snd (q : Block π → Bool) (k : Flowgraph π → Flowgraph π) :
    ((requireAll [new] >>= fun _ => if old = new then pure () else
      requireLive b >>= fun x => if q x then modify k else pure () : Edit π Unit).exec g).2 =
      if g.Live new ∧ old ≠ new ∧ (g.block? b).any q = true then k g else g := by
  by_cases h : g.Live new ∧ old ≠ new ∧ (g.block? b).any q = true
  · rw [if_pos h, exec_redirect h.1 h.2.1 h.2.2]
  rw [if_neg h, exec_requireAll_bind_snd]
  split
  · rename_i hlive
    by_cases hne : old = new
    · rw [if_pos hne]
      rfl
    rw [if_neg hne, exec_bind, exec_requireLive]
    cases hx : g.block? b with
    | none => rfl
    | some x =>
        have hq : q x ≠ true := fun hq => h ⟨hlive new (by simp), hne, by rwa [hx]⟩
        dsimp only
        rw [if_neg hq]
        rfl
  · rfl

theorem exec_redirectSuccessor (hold : old ∈ g.succs b) (hne : old ≠ new) (hnew : g.Live new) :
    (redirectSuccessor b old new).exec g = (.ok (), g.redirectSuccessor b old new) :=
  exec_redirect hnew hne (contains_succs_iff.mpr hold)

theorem exec_redirectSuccessor_snd : ((redirectSuccessor b old new).exec g).2 =
    if g.Live new ∧ old ≠ new ∧ old ∈ g.succs b then g.redirectSuccessor b old new else g :=
  (exec_redirect_snd (·.succs.contains old) _).trans (by simp only [contains_succs_iff])

theorem exec_redirectPredecessor_snd : ((redirectPredecessor b old new).exec g).2 =
    if g.Live new ∧ old ≠ new ∧ old ∈ g.preds b then g.redirectPredecessor b old new else g :=
  (exec_redirect_snd (·.preds.contains old) _).trans (by simp only [contains_preds_iff])

def Keeps (P : Flowgraph π → Prop) (e : Edit π α) : Prop :=
  ∀ g, P g → P (e.exec g).2

theorem Keeps.of_exec {x : Except Fault α} {k : Flowgraph π} (h : Keeps P e) (hg : P g)
    (hk : e.exec g = (x, k)) : P k := by
  have hkept := h g hg
  rwa [hk] at hkept

theorem Keeps.pure (a : α) : Keeps P (Pure.pure a : Edit π α) :=
  fun _ hg => hg

theorem Keeps.throw (x : Fault) : Keeps P (throw x : Edit π α) :=
  fun _ hg => hg

theorem Keeps.ofExcept (x : Except Fault α) : Keeps P (ofExcept x : Edit π α) :=
  fun _ hg => hg

theorem Keeps.bind (he : Keeps P e) (hf : ∀ a, Keeps P (f a)) : Keeps P (e >>= f) := by
  intro g hg
  rw [exec_bind]
  split
  · rename_i a h heq
    exact hf a h (he.of_exec hg heq)
  · rename_i x h heq
    exact he.of_exec hg heq

theorem Keeps.get_bind {f : Flowgraph π → Edit π β} (h : ∀ g, P g → P ((f g).exec g).2) :
    Keeps P (get >>= f) := by
  intro g hg
  rw [exec_bind, exec_get]
  exact h g hg

theorem Keeps.requireAll_bind {bs : List BlockId} {e : Edit π β}
    (h : ∀ g, P g → (∀ b ∈ bs, g.Live b) → P (e.exec g).2) :
    Keeps P (requireAll bs >>= fun _ => e) := by
  intro g hg
  rw [exec_requireAll_bind_snd]
  split
  · rename_i hlive
    exact h g hg hlive
  · exact hg

theorem Keeps.requireLive_bind {b : BlockId} {f : Block π → Edit π β}
    (h : ∀ g x, P g → g.block? b = some x → P ((f x).exec g).2) :
    Keeps P (requireLive b >>= f) := by
  intro g hg
  rw [exec_bind, exec_requireLive]
  cases hx : g.block? b with
  | none => exact hg
  | some x => exact h g x hg hx

theorem Keeps.forM {as : List α} {f : α → Edit π PUnit} (h : ∀ a ∈ as, Keeps P (f a)) :
    Keeps P (as.forM f) := by
  induction as with
  | nil => exact Keeps.pure _
  | cons a as ih =>
      exact (h a List.mem_cons_self).bind fun _ => ih fun a ha => h a (List.mem_cons_of_mem _ ha)

theorem Keeps.foldlM {as : List α} {f : β → α → Edit π β} (h : ∀ s a, Keeps P (f s a)) (s : β) :
    Keeps P (as.foldlM f s) := by
  induction as generalizing s with
  | nil => exact Keeps.pure _
  | cons a as ih =>
      rw [List.foldlM_cons]
      exact (h s a).bind ih

theorem Keeps.anyM {as : List α} {f : α → Edit π Bool} (h : ∀ a, Keeps P (f a)) :
    Keeps P (as.anyM f) := by
  induction as with
  | nil => exact Keeps.pure _
  | cons a as ih =>
      rw [List.anyM_cons]
      refine (h a).bind fun q => ?_
      cases q with
      | true => exact Keeps.pure _
      | false => exact ih

theorem keeps_redirectSuccessor_of
    (hP : ∀ g, old ∈ g.succs b → old ≠ new → g.Live new → P g → P (g.redirectSuccessor b old new)) :
    Keeps P (redirectSuccessor b old new) := by
  intro g hg
  rw [exec_redirectSuccessor_snd]
  split
  · rename_i h
    exact hP g h.2.2 h.2.1 h.1 hg
  · exact hg

theorem keeps_removeBlock_of
    (hP : ∀ g x, g.block? b = some x → P g → P (g.remove b x)) : Keeps P (removeBlock b) :=
  .requireLive_bind fun g x hg hx => hP g x hx hg

theorem keeps_bypass_of (hredirect : ∀ p s, Keeps P (redirectSuccessor p b s))
    (hremove : ∀ g x s, P g → g.block? b = some x → x.bypassTarget? b = some s →
      Keeps P (removeBlock b)) : Keeps P (bypass b) := by
  refine .requireLive_bind fun g x hg hx => ?_
  cases hs : x.bypassTarget? b with
  | none => exact hg
  | some s =>
      refine Keeps.bind (.anyM fun p => .requireLive_bind fun _ _ hg _ => hg) (fun q => ?_) g hg
      cases q with
      | true => exact .pure false
      | false =>
          exact (Keeps.forM fun p _ => hredirect p s).bind fun _ =>
            (hremove g x s hg hx hs).bind fun _ => .pure true

theorem keeps_bypassAll_of (h : ∀ b, Keeps P (bypass b)) : Keeps P (bypassAll : Edit π Nat) := by
  refine .get_bind fun g hg => ?_
  exact Keeps.foldlM (fun n b => (h b).bind fun gone => .pure _) 0 g hg

theorem keeps_prune_of (hremove : ∀ g entry ds, P g → g.entry = some entry →
      g.doomed entry = .ok ds → ∀ b ∈ ds, Keeps P (removeBlock b)) :
    Keeps P (prune : Edit π Nat) := by
  refine .get_bind fun g hg => ?_
  cases hentry : g.entry with
  | none => exact hg
  | some entry =>
      dsimp only
      rw [exec_bind, exec_ofExcept]
      cases hdoomed : g.doomed entry with
      | error e => exact hg
      | ok ds =>
          exact Keeps.bind (.forM (hremove g entry ds hg hentry hdoomed)) (fun _ => .pure _) g hg

section Steady

variable (hP : Steady P)

include hP

theorem foldl_link {bs : List BlockId} (s t : BlockId → BlockId)
    {g : Flowgraph π} (hlive : ∀ b ∈ bs, g.Live (s b) ∧ g.Live (t b)) (hg : P g) :
    P (bs.foldl (fun g b => g.link (s b) (t b) .unconditional) g) := by
  induction bs generalizing g with
  | nil => exact hg
  | cons b bs ih =>
      obtain ⟨hs, ht⟩ := hlive b List.mem_cons_self
      refine ih (fun c hc => ?_) (hP _ _ (.link hs ht) hg)
      rw [live_link, live_link]
      exact hlive c (List.mem_cons_of_mem _ hc)

theorem keeps_addBlock (preds : List BlockId) : Keeps P (addBlock preds) := by
  refine .requireAll_bind fun g hg hlive => ?_
  refine foldl_link hP id (fun _ => g.blocks.size) (fun b hb => ?_)
    (hP _ _ (.append g) hg)
  exact ⟨live_append.mpr (.inr (hlive b hb)), live_append.mpr (.inl rfl)⟩

theorem keeps_connectTo (b : BlockId) (targets : List BlockId) : Keeps P (connectTo b targets) := by
  refine .requireAll_bind fun g hg hlive => ?_
  refine foldl_link hP (fun _ => b) id (fun c hc => ?_) hg
  exact ⟨hlive b List.mem_cons_self, hlive c (List.mem_cons_of_mem _ hc)⟩

theorem keeps_connectFrom (b : BlockId) (sources : List BlockId) :
    Keeps P (connectFrom b sources) := by
  refine .requireAll_bind fun g hg hlive => ?_
  refine foldl_link hP id (fun _ => b) (fun c hc => ?_) hg
  exact ⟨hlive c (List.mem_cons_of_mem _ hc), hlive b List.mem_cons_self⟩

theorem keeps_designate (s : Sentinel) (b : BlockId) : Keeps P (designate s b) := by
  refine .requireAll_bind fun g hg hlive => ?_
  rw [exec_bind, exec_get]
  cases hc : (g.sentinel? s).filter (· != b) with
  | some c => simpa [hc] using hg
  | none =>
      simp only [hc, exec_modify]
      refine hP _ _ (.designate s (hlive b (by simp)) fun c hcb => ?_) hg
      simpa [hcb] using hc

theorem keeps_markTest (b : BlockId) : Keeps P (markTest b) := by
  refine .requireAll_bind fun g hg _ => ?_
  exact hP _ _ (.test g b) hg

theorem keeps_addNode (b : BlockId) (node : π) : Keeps P (addNode b node) := by
  refine .requireAll_bind fun g hg _ => ?_
  exact hP _ _ (.push g b node) hg

theorem keeps_setPasses (p : Passes) : Keeps P (setPasses p) :=
  fun g hg => hP _ _ (.passes g p) hg

theorem keeps_addSentinels : Keeps P addSentinels := by
  refine .get_bind fun g hg => ?_
  cases g.entry <|> g.exit with
  | some b => exact hg
  | none =>
      exact ((keeps_addBlock hP []).bind fun entry => (keeps_addBlock hP []).bind fun exit =>
        (keeps_designate hP .entry entry).bind fun _ => (keeps_designate hP .exit exit).bind fun _ =>
          .pure (entry, exit)) g hg

theorem keeps_removeEdge (u v : BlockId) : Keeps P (removeEdge u v) := by
  intro g hg
  rw [removeEdge, exec_modifyGet]
  by_cases h : v ∈ g.succs u
  · rw [if_pos h]
    exact hP _ _ (.removeEdge h) hg
  · rwa [if_neg h]

theorem keeps_removeBlock (b : BlockId) : Keeps P (removeBlock b) :=
  keeps_removeBlock_of fun _ _ hx hg => hP _ _ (.remove hx) hg

theorem keeps_prune : Keeps P (prune : Edit π Nat) :=
  keeps_prune_of fun _ _ _ _ _ _ b _ => keeps_removeBlock hP b

theorem keeps_layout : Keeps P (layout : Edit π Layout) := by
  refine .get_bind fun g hg => ?_
  cases g.layout with
  | some l => exact hg
  | none =>
      rw [exec_bind, exec_ofExcept]
      cases hl : g.arrange with
      | error x => exact hg
      | ok l => exact hP _ _ (.arrange hl) hg

end Steady

section Lasting

variable (hP : Lasting P)

include hP

theorem keeps_setArm (arm : Arm) (b target : BlockId) : Keeps P (setArm arm b target) := by
  refine .requireAll_bind fun g hg hlive => ?_
  exact hP _ _ (.aim arm (hlive b (by simp)) (hlive target (by simp))) hg

theorem keeps_addArm (arm : Arm) (b : BlockId) : Keeps P (addArm arm b) := by
  refine .requireAll_bind fun g hg _ => ?_
  exact ((keeps_addBlock hP.steady []).bind fun target =>
    (keeps_setArm hP arm b target).bind fun _ => .pure target) g hg

theorem keeps_redirectPredecessor (b old new : BlockId) :
    Keeps P (redirectPredecessor b old new) := by
  intro g hg
  rw [exec_redirectPredecessor_snd]
  split
  · rename_i h
    exact hP _ _ (.redirectPredecessor h.2.2 h.2.1 h.1) hg
  · exact hg

theorem keeps_redirectSuccessor (b old new : BlockId) :
    Keeps P (redirectSuccessor b old new) :=
  keeps_redirectSuccessor_of fun _ hold hne hnew hg =>
    hP _ _ (.redirectSuccessor hold hne hnew) hg

theorem keeps_bypass (b : BlockId) : Keeps P (bypass b) :=
  keeps_bypass_of (keeps_redirectSuccessor hP · b ·) fun _ _ _ _ _ _ => keeps_removeBlock hP.steady b

end Lasting

end Edit

end ControlFlow

import ControlFlow.Proofs.Flowgraph.Atomic
import ControlFlow.Proofs.Flowgraph.Layout
import ControlFlow.Proofs.Flowgraph.Outcome

namespace ControlFlow

open Flowgraph

variable {π α β : Type} {b x old new : BlockId} {bs cs : List BlockId} {g : Flowgraph π}

namespace Flowgraph

theorem exists_firstMissing?_iff :
    (∃ x, g.firstMissing? bs = some x) ↔ ∃ x ∈ bs, ¬g.Live x := by
  rw [← Option.ne_none_iff_exists', Ne, firstMissing?_eq_none_iff]
  simp only [not_forall, exists_prop]

theorem of_firstMissing? (h : g.firstMissing? bs = some x) : x ∈ bs ∧ ¬g.Live x := by
  refine ⟨List.mem_of_find?_eq_some h, fun ⟨y, hy⟩ => ?_⟩
  have hnone := List.find?_some h
  rw [hy] at hnone
  cases hnone

end Flowgraph

namespace Edit

def Needs (g : Flowgraph π) (bs : List BlockId) (e : Edit π α) : Prop :=
  ∀ x, (e.exec g).1 = .error (.unknownBlock x) ↔ g.firstMissing? bs = some x

namespace Needs

variable {e : Edit π α} {f : α → Edit π β}

theorem of_ok {a : α} {g' : Flowgraph π} (h : e.exec g = (.ok a, g')) : Needs g [] e := by
  intro x
  rw [h]
  exact iff_of_false nofun nofun

theorem of_error {y : Fault} (h : (e.exec g).1 = .error y) (hy : ∀ x, y ≠ .unknownBlock x) :
    Needs g [] e := by
  intro x
  rw [h]
  exact iff_of_false (fun heq => hy x (Except.error.inj heq)) nofun

theorem get_bind {f : Flowgraph π → Edit π β} (h : Needs g bs (f g)) : Needs g bs (get >>= f) := by
  intro x
  rw [exec_bind_of_ok (exec_get g)]
  exact h x

theorem requireAll_bind {e : Edit π β} (h : (∀ b ∈ bs, g.Live b) → Needs g cs e) :
    Needs g (bs ++ cs) (requireAll bs >>= fun _ => e) := by
  intro x
  rw [firstMissing?, List.find?_append, ← firstMissing?, ← firstMissing?]
  cases hm : g.firstMissing? bs with
  | none =>
      have hlive := firstMissing?_eq_none_iff.mp hm
      rw [exec_bind_of_ok (exec_requireAll_of_live hlive), Option.none_or]
      exact h hlive x
  | some b =>
      rw [exec_bind, exec_requireAll, hm, Option.some_or, Option.some.injEq]
      exact ⟨fun heq => by cases heq; rfl, fun heq => by rw [heq]⟩

theorem checked {e : Edit π β} (h : (∀ b ∈ bs, g.Live b) → Needs g [] e) :
    Needs g bs (requireAll bs >>= fun _ => e) := by
  have hbind := requireAll_bind h
  rwa [List.append_nil] at hbind

theorem requireLive_bind {f : Block π → Edit π β}
    (h : ∀ y, g.block? b = some y → Needs g cs (f y)) :
    Needs g (b :: cs) (requireLive b >>= f) := by
  intro x
  rw [firstMissing?, List.find?_cons, ← firstMissing?]
  cases hy : g.block? b with
  | none =>
      rw [exec_bind, exec_requireLive, hy]
      exact ⟨fun heq => by cases heq; rfl, fun heq => by cases heq; rfl⟩
  | some y =>
      rw [exec_bind_of_ok (exec_requireLive_of_some hy)]
      exact h y hy x

theorem silent (h : Needs g bs e) : Needs g bs e.silent := by
  intro x
  rw [← h x]
  cases hr : (e.exec g).1 with
  | error y =>
      have he : e.exec g = (.error y, (e.exec g).2) := Prod.ext hr rfl
      rw [Edit.silent, exec_bind, he, Except.error.injEq, Except.error.injEq]
  | ok a =>
      rw [Edit.silent, exec_bind_of_ok (Prod.ext hr rfl)]
      refine iff_of_false (fun heq => ?_) fun heq => ?_
      · cases heq
      · cases heq

theorem redirect (hne : old ≠ new) (q : Block π → Bool) (k : Flowgraph π → Flowgraph π) :
    Needs g [new, b] (requireAll [new] >>= fun _ => if old = new then pure () else
      requireLive b >>= fun y => if q y then modify k else pure () : Edit π Unit) := by
  change Needs g ([new] ++ [b]) _
  refine requireAll_bind fun _ => ?_
  rw [if_neg hne]
  refine requireLive_bind fun y _ => ?_
  split
  · exact of_ok (exec_modify k g)
  · exact of_ok (exec_pure () g)

end Needs

theorem requireAll_one_fst : (g.Live b → ((requireAll [b]).exec g).1 = .ok ()) ∧
    (¬g.Live b → ((requireAll [b]).exec g).1 = .error (.unknownBlock b)) := by
  constructor
  · intro hlive
    rw [exec_requireAll_of_live (List.forall_mem_singleton.mpr hlive)]
  · intro hdead
    obtain ⟨x, hx⟩ := exists_firstMissing?_iff.mpr ⟨b, List.mem_singleton_self b, hdead⟩
    rw [exec_requireAll, hx, List.mem_singleton.mp (of_firstMissing? hx).1]

theorem needs_addArm (arm : Arm) : Needs g [b] (addArm arm b) := by
  refine .checked fun hlive => ?_
  have hexec := exec_addArm arm (hlive b List.mem_cons_self)
  rw [addArm, exec_bind_of_ok (exec_requireAll_of_live hlive)] at hexec
  exact .of_ok hexec

theorem needs_designate (s : Sentinel) : Needs g [b] (designate s b) := by
  refine .checked fun _ => .get_bind ?_
  cases (g.sentinel? s).filter (· != b) with
  | some c => exact .of_error rfl nofun
  | none => exact .of_ok (exec_modify _ g)

theorem needs_addSentinels : Needs g [] addSentinels := by
  cases hentry : g.entry with
  | some b => exact .get_bind (by rw [hentry]; exact .of_error rfl nofun)
  | none =>
      cases hexit : g.exit with
      | some b => exact .get_bind (by rw [hentry, hexit]; exact .of_error rfl nofun)
      | none =>
          obtain ⟨g', h⟩ := exists_addSentinels hentry hexit
          exact .of_ok h

section Consistent

variable (hg : Consistent g)

include hg

theorem needs_bypass : Needs g [b] (bypass b) := by
  refine .requireLive_bind fun y hy => ?_
  by_cases hs : ∃ s, g.Bypassable b s
  · obtain ⟨s, hs⟩ := hs
    obtain ⟨k, hk, -⟩ := exists_bypassed hg hs
    rw [bypass, exec_bind_of_ok (exec_requireLive_of_some hy)] at hk
    exact .of_ok hk
  · have hk := exec_bypass_of_not_bypassable hg ⟨y, hy⟩ (not_exists.mp hs)
    rw [bypass, exec_bind_of_ok (exec_requireLive_of_some hy)] at hk
    exact .of_ok hk

theorem needs_bypassAll : Needs g [] bypassAll := by
  obtain ⟨n, g', h, -⟩ := exists_bypassAll hg
  exact .of_ok h

theorem needs_prune : Needs g [] prune := by
  cases hentry : g.entry with
  | none => exact .get_bind (by rw [hentry]; exact .of_error rfl nofun)
  | some entry =>
      obtain ⟨ds, g', h, -⟩ := exists_pruned hg hentry
      exact .of_ok h

theorem needs_analyze : Needs g [] analyze := by
  cases hentry : g.entry with
  | none => exact .of_error (congrArg Prod.fst (exec_analyze_of_no_entry hentry)) nofun
  | some entry =>
      cases hexit : g.exit with
      | none => exact .of_error (congrArg Prod.fst (exec_analyze_of_no_exit hentry hexit)) nofun
      | some exit =>
          obtain ⟨k, -, -, hout⟩ := exec_analyze_fst hg hentry hexit
          cases hv : k.firstViolation? with
          | some v =>
              rw [hv] at hout
              exact .of_error hout nofun
          | none =>
              rw [hv] at hout
              exact .of_ok (Prod.ext hout rfl)

theorem needs_layout : Needs g [] layout := by
  refine .get_bind ?_
  cases g.layout with
  | some l => exact .of_ok (exec_pure l g)
  | none =>
      obtain ⟨p, hp⟩ := hg.exists_arrange
      rw [hp]
      exact .of_ok (exec_bind_of_ok rfl)

end Consistent

end Edit

namespace Command

def named : Command π → List BlockId
  | addBlock preds => preds
  | connectTo b bs | connectFrom b bs => b :: bs
  | setArm _ b target => [target, b]
  | redirectSuccessor b _ new | redirectPredecessor b _ new => [new, b]
  | addArm _ b | designate _ b | markTest b | addNode b _ => [b]
  | bypass b | removeBlock b => [b]
  | addSentinels | setPasses _ | bypassAll | prune | removeEdge _ _ | analyze | layout => []

def Idle : Command π → Prop
  | redirectSuccessor _ old new | redirectPredecessor _ old new => old = new
  | _ => False

theorem needs_run (hg : Consistent g) (c : Command π) (hc : ¬c.Idle) :
    Edit.Needs g c.named c.run := by
  cases c with
  | addBlock preds => exact (Edit.Needs.checked fun _ => .of_ok (Edit.exec_modifyGet _ g)).silent
  | connectTo b targets => exact .checked fun _ => .of_ok (Edit.exec_modify _ g)
  | connectFrom b sources => exact .checked fun _ => .of_ok (Edit.exec_modify _ g)
  | addArm arm b => exact (Edit.needs_addArm arm).silent
  | setArm arm b target => exact .checked fun _ => .of_ok (Edit.exec_modify _ g)
  | designate s b => exact Edit.needs_designate s
  | markTest b => exact .checked fun _ => .of_ok (Edit.exec_modify _ g)
  | addSentinels => exact Edit.needs_addSentinels.silent
  | addNode b node => exact .checked fun _ => .of_ok (Edit.exec_modify _ g)
  | setPasses p => exact .of_ok (Edit.exec_modify _ g)
  | redirectSuccessor b old new => exact .redirect hc (·.succs.contains old) _
  | redirectPredecessor b old new => exact .redirect hc (·.preds.contains old) _
  | bypass b => exact (Edit.needs_bypass hg).silent
  | bypassAll => exact (Edit.needs_bypassAll hg).silent
  | prune => exact (Edit.needs_prune hg).silent
  | removeBlock b => exact .requireLive_bind fun y _ => .of_ok (Edit.exec_modify _ g)
  | removeEdge u v => exact .of_ok (Edit.exec_bind_of_ok (Edit.exec_modifyGet _ g))
  | analyze => exact Edit.needs_analyze hg
  | layout => exact (Edit.needs_layout hg).silent

theorem exec_run_idle (c : Command π) (hc : c.Idle) : ∃ new b, c.named = [new, b] ∧
    (g.Live new → (c.run.exec g).1 = .ok ()) ∧
    (¬g.Live new → (c.run.exec g).1 = .error (.unknownBlock new)) := by
  have hidle : ∀ new (e : Edit π Unit),
      (Edit.requireAll [new] >>= fun _ => if new = new then pure () else e) =
        Edit.requireAll [new] := by
    intro new e
    rw [if_pos rfl]
    exact bind_pure _
  cases c with
  | redirectSuccessor b old new =>
      obtain rfl : old = new := hc
      refine ⟨old, b, rfl, ?_⟩
      rw [run, Edit.redirectSuccessor, hidle]
      exact Edit.requireAll_one_fst
  | redirectPredecessor b old new =>
      obtain rfl : old = new := hc
      refine ⟨old, b, rfl, ?_⟩
      rw [run, Edit.redirectPredecessor, hidle]
      exact Edit.requireAll_one_fst
  | _ => exact hc.elim

end Command

namespace Flowgraph

/-- Whatever was done to a graph, a command is refused for want of a block exactly where one that it
was given is not live, and the refusal names such a block. A redirection from a block to itself is
the exception: there the block to redirect is not looked at, and need not be live. -/
theorem unknownBlock_after (passes : Passes) (cs : List (Command π)) (c : Command π) :
    let g := after passes cs
    let outcome := (c.stepwise.exec g).1
    c.run.exec g = c.stepwise.exec g ∧
    (∀ x, outcome = .error (.unknownBlock x) → x ∈ c.named ∧ ¬g.Live x) ∧
    (¬c.Idle → ((∃ x, outcome = .error (.unknownBlock x)) ↔ ∃ x ∈ c.named, ¬g.Live x)) ∧
    (c.Idle → ∃ new b, c.named = [new, b] ∧
      (g.Live new → outcome = .ok ()) ∧ (¬g.Live new → outcome = .error (.unknownBlock new))) := by
  intro g outcome
  have hrun : c.stepwise.exec g = c.run.exec g := by rw [c.stepwise_eq_run]
  have hout : outcome = (c.run.exec g).1 := congrArg Prod.fst hrun
  rw [hout]
  refine ⟨hrun.symm, fun x hx => ?_, fun hc => ?_, fun hc => c.exec_run_idle hc⟩
  · by_cases hc : c.Idle
    · obtain ⟨new, b, hnamed, hlive, hdead⟩ := c.exec_run_idle (g := g) hc
      by_cases hnew : g.Live new
      · exact absurd ((hlive hnew).symm.trans hx) nofun
      · cases (hdead hnew).symm.trans hx
        exact ⟨hnamed ▸ List.mem_cons_self, hnew⟩
    · exact of_firstMissing? ((c.needs_run (consistent_after passes cs) hc x).mp hx)
  · rw [← exists_firstMissing?_iff]
    exact exists_congr fun x => c.needs_run (consistent_after passes cs) hc x

theorem idle_redirection_overlooks :
    let g := after .usual [.addSentinels]
    let c : Command Nat := .redirectSuccessor 5 1 1
    5 ∈ c.named ∧ ¬g.Live 5 ∧ c.run.exec g = (.ok (), g) ∧
      ¬((∃ x, (c.run.exec g).1 = .error (.unknownBlock x)) ↔ ∃ x ∈ c.named, ¬g.Live x) := by
  intro g c
  have hdead : ¬g.Live 5 := fun ⟨x, hx⟩ => by cases hx
  have hok : c.run.exec g = (.ok (), g) := rfl
  have hmem : 5 ∈ c.named := List.mem_cons_of_mem 1 List.mem_cons_self
  refine ⟨hmem, hdead, hok, fun hiff => ?_⟩
  obtain ⟨x, hx⟩ := hiff.mpr ⟨5, hmem, hdead⟩
  rw [hok] at hx
  cases hx

end Flowgraph

end ControlFlow

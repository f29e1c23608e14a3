import ControlFlow.Proofs.Flowgraph.InStep
import ControlFlow.Proofs.Flowgraph.Layout
import ControlFlow.Proofs.Flowgraph.Tests
import Mathlib

namespace ControlFlow

open Flowgraph

variable {π α : Type} {b c o old new s t u v : BlockId} {g : Flowgraph π} {β : Branch} {arm : Arm}

namespace Edit

theorem exec_setArm_snd : ((setArm arm b t).exec g).2 =
    if g.Live t ∧ g.Live b then g.aim b arm t else g := by
  rw [setArm, exec_requireAll_bind_snd]
  refine if_congr ?_ rfl rfl
  simp

theorem exec_addArm_snd : ((addArm arm b).exec g).2 =
    if g.Live b then g.append.aim b arm g.blocks.size else g := by
  by_cases hb : g.Live b
  · rw [exec_addArm arm hb, if_pos hb]
  · rw [addArm, exec_requireAll_bind_snd, if_neg (by simpa using hb), if_neg hb]

end Edit

namespace Flowgraph

def shared? (g : Flowgraph π) (b : BlockId) : Option BlockId :=
  (g.block? b).bind fun x => if x.onTrue = x.onFalse then x.onTrue else none

theorem shared?_eq_some_iff (hβ : g.branch? b = some β) (arm : Arm) :
    g.shared? b = some o ↔ β.target? arm = some o ∧ β.target? arm.other = some o := by
  obtain ⟨x, hx, rfl⟩ := Option.map_eq_some_iff.mp hβ
  have hboth : g.shared? b = some o ↔ x.onTrue = some o ∧ x.onFalse = some o := by
    rw [shared?, hx, Option.bind_some]
    split
    · rename_i heq
      rw [← heq, and_self]
    · rename_i hne
      refine iff_of_false nofun fun h => hne (h.1.trans h.2.symm)
  cases arm with
  | onTrue => exact hboth
  | onFalse => exact hboth.trans and_comm

theorem shared?_of_not_live (hb : ¬g.Live b) : g.shared? b = none := by
  have hnone : g.block? b = none := Option.eq_none_iff_forall_ne_some.mpr fun x hx => hb ⟨x, hx⟩
  rw [shared?, hnone, Option.bind_none]

theorem isTest_of_branch? (hβ : g.branch? b = some β) : g.isTest b = β.isTest := by
  obtain ⟨x, hx, rfl⟩ := Option.map_eq_some_iff.mp hβ
  rw [isTest, hx]
  rfl

theorem mem_succs_of_flow (hcons : Consistent g) (h : g.edges.flow u v ≠ .unconditional) :
    v ∈ g.succs u := by
  by_contra hv
  exact h (EdgeIndex.flow_of_not_holds fun huv => hv (hcons.mem_succs_iff.mpr huv))

theorem live_of_mem_succs (hcons : Consistent g) (h : v ∈ g.succs u) : g.Live u ∧ g.Live v :=
  hcons.ends u v (hcons.mem_succs_iff.mp h)

end Flowgraph

namespace Command

/-- The command neither takes its flow from an edge that stays an arm, nor merges an arm with a
plain edge, nor gives an arm to a block that has it elsewhere. -/
def Tidy (g : Flowgraph π) : Command π → Prop
  | setArm _ b t => g.Live t → ∀ o ∈ g.shared? b, o = t
  | addArm _ b => g.shared? b = none
  | redirectSuccessor b old new =>
      g.flowOf b old ≠ .unconditional → new ∈ g.succs b → g.flowOf b new ≠ .unconditional
  | redirectPredecessor b old new =>
      g.flowOf old b ≠ .unconditional →
        (∀ o ∈ g.succs new, g.flowOf new o = g.flowOf old b → o = b) ∧
        (b ∈ g.succs new → g.flowOf new b ≠ .unconditional)
  | _ => True

instance (g : Flowgraph π) : (c : Command π) → Decidable (c.Tidy g)
  | setArm _ b t => inferInstanceAs (Decidable (g.Live t → ∀ o ∈ g.shared? b, o = t))
  | addArm _ b => inferInstanceAs (Decidable (g.shared? b = none))
  | redirectSuccessor b old new => inferInstanceAs (Decidable
      (g.flowOf b old ≠ .unconditional → new ∈ g.succs b → g.flowOf b new ≠ .unconditional))
  | redirectPredecessor b old new => inferInstanceAs (Decidable
      (g.flowOf old b ≠ .unconditional →
        (∀ o ∈ g.succs new, g.flowOf new o = g.flowOf old b → o = b) ∧
        (b ∈ g.succs new → g.flowOf new b ≠ .unconditional)))
  | addBlock _ | connectTo _ _ | connectFrom _ _ | designate _ _ | markTest _
  | addSentinels | addNode _ _ | setPasses _ | bypass _ | bypassAll | prune | removeBlock _
  | removeEdge _ _ | analyze | layout => .isTrue trivial

theorem keeps_bypass_inStep (b : BlockId) :
    Edit.Keeps (fun g : Flowgraph π => g.InStep ∧ Consistent g) (Edit.bypass b) := by
  apply Edit.keeps_bypass_apart
  · intro k p b s hcons hold hne _ hapart h
    obtain ⟨β, hβ⟩ := branch?_of_mem_succs hold
    refine (inStep_redirectSuccessor_iff h hβ hne).mpr fun hflow hps => ?_
    obtain ⟨arm, -, harm⟩ := (h p β hβ).flow_eq_of hflow
    have htest : k.isTest p = true := (isTest_of_branch? hβ).trans ((h p β hβ).isTest arm b harm)
    exact absurd (hcons.mem_succs_iff.mpr hps) (hapart htest)
  · intro k b y _ _ _ h
    exact branchwise_inStep.remove h b y

theorem setArm_inStep_iff (h : g.InStep) :
    ((setArm arm b t).apply g).InStep ↔ (setArm arm b t).Tidy g := by
  rw [apply, Edit.exec_setArm_snd]
  split
  · rename_i hlive
    obtain ⟨β, hβ⟩ := branch?_of_live hlive.2
    rw [inStep_aim_iff h hβ]
    constructor
    · intro hboth _ o ho
      obtain ⟨harm, hother⟩ := (shared?_eq_some_iff hβ arm).mp ho
      exact hboth o harm hother
    · intro htidy o harm hother
      exact htidy hlive.1 o ((shared?_eq_some_iff hβ arm).mpr ⟨harm, hother⟩)
  · rename_i hdead
    refine iff_of_true h fun ht o ho => ?_
    rw [shared?_of_not_live fun hb => hdead ⟨ht, hb⟩] at ho
    cases ho

section Arms

variable (h : g.InStep) (hcons : Consistent g)

include h hcons

theorem addArm_inStep_iff :
    ((addArm arm b).apply g).InStep ↔ (addArm arm b).Tidy g := by
  rw [apply, Edit.exec_addArm_snd]
  split
  · rename_i hb
    obtain ⟨β, hβ⟩ := branch?_of_live hb
    have hsize : b ≠ g.blocks.size := fun e => not_live_size (e ▸ hb)
    have hβ' : g.append.branch? b = some β := by rw [branch?_append, if_neg hsize, hβ]
    rw [inStep_aim_iff (branchwise_inStep.append hcons h) hβ', Tidy,
      Option.eq_none_iff_forall_ne_some]
    constructor
    · intro hboth o ho
      obtain ⟨harm, hother⟩ := (shared?_eq_some_iff hβ arm).mp ho
      have hmem := mem_succs_of_flow hcons ((h b β hβ).flow arm o harm)
      exact not_live_size (hboth o harm hother ▸ (live_of_mem_succs hcons hmem).2)
    · intro hnone o harm hother
      exact absurd ((shared?_eq_some_iff hβ arm).mpr ⟨harm, hother⟩) (hnone o)
  · rename_i hb
    exact iff_of_true h (shared?_of_not_live hb)

theorem redirectSuccessor_inStep_iff : ((redirectSuccessor b old new).apply g).InStep ↔
    (redirectSuccessor b old new).Tidy g := by
  rw [apply, Edit.exec_redirectSuccessor_snd]
  split
  · rename_i hdone
    obtain ⟨β, hβ⟩ := branch?_of_mem_succs hdone.2.2
    rw [inStep_redirectSuccessor_iff h hβ hdone.2.1, Tidy, hcons.mem_succs_iff]
    rfl
  · rename_i hrefused
    refine iff_of_true h fun hflow hnew => ?_
    by_cases hne : old = new
    · rwa [← hne]
    · exact absurd ⟨(live_of_mem_succs hcons hnew).2, hne, mem_succs_of_flow hcons hflow⟩ hrefused

theorem redirectPredecessor_inStep_iff :
    ((redirectPredecessor b old new).apply g).InStep ↔
      (redirectPredecessor b old new).Tidy g := by
  rw [apply, Edit.exec_redirectPredecessor_snd]
  split
  · rename_i hdone
    obtain ⟨hnew, hne, hold⟩ := hdone
    obtain ⟨β, hβ⟩ := branch?_of_live (hcons.ends old b (hcons.mem_preds_iff.mp hold)).1
    obtain ⟨β', hβ'⟩ := branch?_of_live hnew
    rw [inStep_redirectPredecessor_iff h hβ hβ' hne, Tidy, ← hcons.mem_succs_iff]
    refine forall_congr' fun hflow => and_congr_left fun _ => ⟨fun hall o _ => hall o, ?_⟩
    intro hall o ho
    exact hall o (mem_succs_of_flow hcons (ho ▸ hflow)) ho
  · rename_i hrefused
    refine iff_of_true h fun hflow => ?_
    have hmem := mem_succs_of_flow hcons hflow
    by_cases hne : old = new
    · subst hne
      obtain ⟨β, hβ⟩ := branch?_of_mem_succs hmem
      obtain ⟨arm, harm, htarget⟩ := (h old β hβ).flow_eq_of hflow
      refine ⟨fun o _ ho => ?_, fun _ => hflow⟩
      have htarget' := (h old β hβ).target arm o (ho.trans harm)
      exact Option.some.inj (htarget'.symm.trans htarget)
    · have hold := hcons.mem_preds_iff.mpr (hcons.mem_succs_iff.mp hmem)
      have hdead : ∀ o, o ∉ g.succs new := fun o ho =>
        hrefused ⟨(live_of_mem_succs hcons ho).1, hne, hold⟩
      exact ⟨fun o ho => absurd ho (hdead o), fun hb => absurd hb (hdead b)⟩

theorem inStep_apply_iff (c : Command π) : (c.apply g).InStep ↔ c.Tidy g := by
  cases c with
  | setArm => exact setArm_inStep_iff h
  | addArm => exact addArm_inStep_iff h hcons
  | redirectSuccessor => exact redirectSuccessor_inStep_iff h hcons
  | redirectPredecessor => exact redirectPredecessor_inStep_iff h hcons
  | _ =>
      refine iff_of_true ?_ trivial
      exact (keeps_apply_of branchwise_inStep.steady keeps_bypass_inStep ⟨h, hcons⟩ _ rfl).1

end Arms

end Command

namespace Flowgraph

def Careful (g : Flowgraph π) : List (Command π) → Prop
  | [] => True
  | c :: cs => c.Tidy g ∧ Careful (c.apply g) cs

instance decidableCareful (g : Flowgraph π) : (cs : List (Command π)) → Decidable (Careful g cs)
  | [] => .isTrue trivial
  | c :: cs =>
      have := decidableCareful (c.apply g) cs
      inferInstanceAs (Decidable (c.Tidy g ∧ Careful (c.apply g) cs))

theorem inStep_foldl {cs : List (Command π)} (h : g.InStep) (hcons : Consistent g)
    (hcs : Careful g cs) : (cs.foldl Command.apply g).InStep := by
  induction cs generalizing g with
  | nil => exact h
  | cons c cs ih =>
      obtain ⟨hc, hcs⟩ := hcs
      have hcons' := (c.keeps_apply Consistent.lasting ⟨hcons, hcons⟩).2
      exact ih ((Command.inStep_apply_iff h hcons c).mpr hc) hcons' hcs

theorem bears_empty (R : Branch → (BlockId → Flow) → Prop) (passes : Passes) :
    Bears R (empty passes : Flowgraph π).branch? (empty passes : Flowgraph π).edges.flow := by
  intro b β hβ
  simp [branch?, block?, empty] at hβ

theorem inStep_after {passes : Passes} {cs : List (Command π)} (hcs : Careful (empty passes) cs) :
    (after passes cs).InStep :=
  inStep_foldl (bears_empty _ passes) (consistent_empty passes) hcs

theorem tested_after (passes : Passes) (cs : List (Command π)) :
    Bears Branch.Tested (after passes cs).branch? (after passes cs).edges.flow :=
  (keeps_after tested_lasting passes ⟨bears_empty _ passes, consistent_empty passes⟩ cs).1.1

theorem InStep.flow_eq_iff {x : Block π} (h : g.InStep) (hx : g.block? b = some x)
    (hforks : x.Forks) : g.edges.flow b t = arm.flow ↔ x.target? arm = some t := by
  have hβ : g.branch? b = some x.branch := by rw [branch?, hx, Option.map_some]
  have hstep : x.branch.InStep (g.edges.flow b) := h b x.branch hβ
  refine ⟨hstep.target arm t, fun harm => ?_⟩
  obtain ⟨a, ha, htarget⟩ := hstep.flow_eq_of (hstep.flow arm t harm)
  rw [ha, hforks.arm_unique htarget harm]

theorem InStep.isTest_of_flow {x : Block π} (h : g.InStep) (hx : g.block? b = some x)
    (hflow : g.edges.flow b t ≠ .unconditional) : x.isTest = true := by
  have hβ : g.branch? b = some x.branch := by rw [branch?, hx, Option.map_some]
  obtain ⟨arm, -, harm⟩ := (h b x.branch hβ).flow_eq_of hflow
  exact (h b x.branch hβ).isTest arm t harm

theorem InStep.exists_mem_conditional_iff {flow : Flow} {preorder : List BlockId} (h : g.InStep)
    (hcons : Consistent g) (hforked : g.Forked) :
    (∃ k, ⟨u, v, flow, k⟩ ∈ (g.layoutOf preorder).conditional) ↔
      ∃ x arm, g.block? u = some x ∧ x.isTest = true ∧ x.target? arm = some v ∧
        flow = arm.flow := by
  have hlisted : (∃ k, ⟨u, v, flow, k⟩ ∈ (g.layoutOf preorder).conditional) ↔
      g.edges.Holds u v ∧ g.edges.flow u v = flow ∧ flow.isConditional = true := by
    simp only [layoutOf, List.mem_filter, exists_and_right, hcons.exists_mem_edgeList_iff,
      and_assoc]
  rw [hlisted]
  constructor
  · rintro ⟨huv, rfl, hflow⟩
    have hne : g.edges.flow u v ≠ .unconditional := fun e => by simp [e, Flow.isConditional] at hflow
    obtain ⟨x, hx⟩ := (hcons.ends u v huv).1
    have htest := h.isTest_of_flow hx hne
    obtain ⟨arm, harm⟩ := Arm.exists_flow_eq hne
    exact ⟨x, arm, hx, htest, (h.flow_eq_iff hx (hforked u x hx htest)).mp harm, harm⟩
  · rintro ⟨x, arm, hx, htest, htarget, rfl⟩
    have hflow := (h.flow_eq_iff hx (hforked u x hx htest)).mpr htarget
    have hmem := mem_succs_of_flow hcons (hflow ▸ arm.flow_ne)
    exact ⟨hcons.mem_succs_iff.mp hmem, hflow, by cases arm <;> rfl⟩

end Flowgraph

namespace Edit

theorem exists_layout_of_toOption {ends : List (BlockId × BlockId)}
    (h : ((analyze >>= fun _ => layout).exec g).1.toOption.map (·.conditional.map Edge.ends) =
      some ends) :
    ∃ k l, analyze.exec g = (.ok (), k) ∧ (layout.exec k).1 = .ok l ∧
      l.conditional.map Edge.ends = ends := by
  obtain ⟨l, hl, hends⟩ := Option.map_eq_some_iff.mp h
  generalize hy : (analyze >>= fun _ => layout).exec g = y at hl
  obtain ⟨_ | l', k'⟩ := y
  · cases hl
  · cases hl
    obtain ⟨_, k, hk, hlayout⟩ := exec_bind_eq_ok hy
    exact ⟨k, l, hk, by rw [hlayout], hends⟩

theorem exec_layout_record {r : Results} (hcons : Consistent (g.record r)) :
    ∃ p, (layout.exec (g.record r)).1 = .ok ((g.record r).layoutOf p) := by
  obtain ⟨p, hp⟩ := hcons.exists_arrange
  refine ⟨p, ?_⟩
  rw [layout, exec_bind, exec_get]
  change ((ofExcept (g.record r).arrange >>= fun l => _).exec _).1 = _
  rw [exec_bind, exec_ofExcept, hp]
  rfl

end Edit

namespace Flowgraph

/-- Whatever was done to a graph, only tests have conditional edges. While all commands were tidy,
the arms of an accepted test have their flows and the conditional edges of an analyzed graph are the
arms of its tests, and only a command that is not tidy can change this. -/
theorem roles_after (passes : Passes) (cs : List (Command π)) :
    let g := after passes cs
    (∀ b x, g.block? b = some x → x.isTest = false → ∀ t, g.flowOf b t = .unconditional) ∧
    (Careful (empty passes) cs →
      (∀ c : Command π, (c.apply g).InStep ↔ c.Tidy g) ∧
      (∀ b x, g.block? b = some x → x.isTest = true → testViolation? b x = none →
        ∃ t f, x.onTrue = some t ∧ x.onFalse = some f ∧ t ≠ f ∧
          g.flowOf b t = .onTrue ∧ g.flowOf b f = .onFalse) ∧
      ∀ h, Edit.analyze.exec g = (.ok (), h) → ∃ l, (Edit.layout.exec h).1 = .ok l ∧
        (l.conditional.map Edge.ends).Nodup ∧
        (∀ u v flow, (∃ k, ⟨u, v, flow, k⟩ ∈ l.conditional) ↔
          ∃ x arm, h.block? u = some x ∧ x.isTest = true ∧ x.target? arm = some v ∧
            flow = arm.flow) ∧
        ∀ b x, h.block? b = some x → x.isTest = true →
          ∃ t f, x.onTrue = some t ∧ x.onFalse = some f ∧ t ≠ f) := by
  intro g
  have hcons : Consistent g := consistent_after passes cs
  constructor
  · intro b x hx htest t
    by_contra hflow
    have hβ : g.branch? b = some x.branch := by rw [branch?, hx, Option.map_some]
    have htrue : x.isTest = true := tested_after passes cs b x.branch hβ t hflow
    rw [htest] at htrue
    cases htrue
  intro hcareful
  have hstep : g.InStep := inStep_after hcareful
  refine ⟨Command.inStep_apply_iff hstep hcons, ?_, ?_⟩
  · intro b x hx _ hvalid
    have hforks := Block.testViolation?_eq_none_iff.mp hvalid
    have hflow : ∀ (arm : Arm) (t : BlockId), x.target? arm = some t → g.flowOf b t = arm.flow :=
      fun _ _ => (hstep.flow_eq_iff hx hforks).mpr
    obtain ⟨t, f, ht, hf, hne, -⟩ := hforks
    exact ⟨t, f, ht, hf, hne, hflow .onTrue t ht, hflow .onFalse f hf⟩
  · intro h hok
    have hforked : h.Forked := Edit.forked_of_analyze hcons hok
    have hanalyzed : Command.analyze.apply g = h := congrArg Prod.snd hok
    have hstep' : h.InStep := hanalyzed ▸ (Command.inStep_apply_iff hstep hcons .analyze).mpr trivial
    have hcons' : Consistent h :=
      hanalyzed ▸ (Command.analyze.keeps_apply Consistent.lasting ⟨hcons, hcons⟩).2
    have hlayout : ∃ p, (Edit.layout.exec h).1 = .ok (h.layoutOf p) := by
      obtain ⟨-, -, -, k, r, -, -, -, -, -, -, rfl⟩ := Edit.analyze_ok hcons hok
      exact Edit.exec_layout_record hcons'
    obtain ⟨p, hp⟩ := hlayout
    refine ⟨h.layoutOf p, hp, ?_, fun u v flow => ?_, fun b x hx htest => ?_⟩
    · exact hcons'.nodup_ends_edgeList.sublist ((List.filter_sublist ..).map _)
    · exact hstep'.exists_mem_conditional_iff hcons' hforked
    · obtain ⟨t, f, ht, hf, hne, -⟩ := hforked b x hx htest
      exact ⟨t, f, ht, hf, hne⟩

def branchHistory : List (Command Nat) :=
  [.addSentinels, .addArm .onTrue 0, .addArm .onFalse 0, .connectFrom 1 [2, 3], .addBlock [],
    .redirectSuccessor 0 3 4, .connectTo 4 [3], .setArm .onTrue 0 2]

theorem roles_after_branchHistory :
    Careful (empty .usual) branchHistory ∧
      ∃ h l, Edit.analyze.exec (after .usual branchHistory) = (.ok (), h) ∧
        (Edit.layout.exec h).1 = .ok l ∧ l.conditional.map Edge.ends = [(0, 2), (0, 4)] ∧
        ∀ u v flow, (∃ k, ⟨u, v, flow, k⟩ ∈ l.conditional) ↔
          ∃ x arm, h.block? u = some x ∧ x.isTest = true ∧ x.target? arm = some v ∧
            flow = arm.flow := by
  have hcareful : Careful (empty .usual) branchHistory := of_decide_eq_true (by cbv)
  have hends : ((Edit.analyze >>= fun _ => Edit.layout).exec
      (after .usual branchHistory)).1.toOption.map (·.conditional.map Edge.ends) =
        some [(0, 2), (0, 4)] := by cbv
  obtain ⟨h, l, hexec, hl, hends⟩ := Edit.exists_layout_of_toOption hends
  obtain ⟨l', hl', -, hmem, -⟩ := ((roles_after .usual branchHistory).2 hcareful).2.2 h hexec
  cases hl.symm.trans hl'
  exact ⟨hcareful, h, l, hexec, hl, hends, hmem⟩

def carelessHistory : List (Command Nat) :=
  [.addSentinels, .addBlock [], .setArm .onTrue 0 1, .setArm .onFalse 0 1, .setArm .onTrue 0 2,
    .connectTo 2 [1], .addNode 2 7]

theorem arm_loses_flow :
    ∃ x h y l, (after .usual carelessHistory).block? 0 = some x ∧ x.isTest = true ∧
      testViolation? 0 x = none ∧ x.onFalse = some 1 ∧
      (after .usual carelessHistory).flowOf 0 1 = .unconditional ∧
      Edit.analyze.exec (after .usual carelessHistory) = (.ok (), h) ∧
      h.block? 0 = some y ∧ y.isTest = true ∧ y.onFalse = some 1 ∧
      (Edit.layout.exec h).1 = .ok l ∧ l.conditional.map Edge.ends = [(0, 2)] := by
  have hblock : ((after .usual carelessHistory).block? 0).map (fun x =>
      (x.isTest, x.onTrue, x.onFalse, x.succs)) = some (true, some 2, some 1, #[1, 2]) := by cbv
  have hflow : (after .usual carelessHistory).flowOf 0 1 = .unconditional := by cbv
  have hkept : ((Edit.analyze.exec (after .usual carelessHistory)).2.block? 0).map (fun x =>
      (x.isTest, x.onFalse)) = some (true, some 1) := by cbv
  have hends : ((Edit.analyze >>= fun _ => Edit.layout).exec
      (after .usual carelessHistory)).1.toOption.map (·.conditional.map Edge.ends) =
        some [(0, 2)] := by cbv
  obtain ⟨h, l, hexec, hl, hends⟩ := Edit.exists_layout_of_toOption hends
  rw [hexec] at hkept
  obtain ⟨x, hx, hfields⟩ := Option.map_eq_some_iff.mp hblock
  simp only [Prod.mk.injEq] at hfields
  obtain ⟨htest, htrue, hfalse, hsuccs⟩ := hfields
  have hvalid : testViolation? 0 x = none :=
    Block.testViolation?_eq_none_iff.mpr ⟨2, 1, htrue, hfalse, by simp [hsuccs]⟩
  obtain ⟨y, hy, hfields⟩ := Option.map_eq_some_iff.mp hkept
  simp only [Prod.mk.injEq] at hfields
  obtain ⟨htest', hfalse'⟩ := hfields
  exact ⟨x, h, y, l, hx, htest, hvalid, hfalse, hflow, hexec, hy, htest', hfalse', hl, hends⟩

end Flowgraph

end ControlFlow

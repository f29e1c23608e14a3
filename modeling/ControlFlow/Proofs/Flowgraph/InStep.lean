import ControlFlow.Proofs.Flowgraph.Branch

namespace ControlFlow

open Function (update_eq_self update_self update_of_ne)

variable {π : Type} {b c o old new s t u v : BlockId} {φ : BlockId → Flow}

namespace Arm

variable {a arm : Arm}

def other : Arm → Arm
  | onTrue => onFalse
  | onFalse => onTrue

theorem other_ne (arm : Arm) : arm.other ≠ arm := by
  cases arm <;> decide

theorem eq_other (h : a ≠ arm) : a = arm.other := by
  cases a <;> cases arm <;> simp_all [other]

theorem flow_ne (arm : Arm) : arm.flow ≠ .unconditional := by
  cases arm <;> decide

theorem flow_injective (h : a.flow = arm.flow) : a = arm := by
  cases a <;> cases arm <;> simp_all [flow]

theorem exists_flow_eq {flow : Flow} (h : flow ≠ .unconditional) :
    ∃ arm : Arm, flow = arm.flow := by
  cases flow with
  | unconditional => exact absurd rfl h
  | onTrue => exact ⟨.onTrue, rfl⟩
  | onFalse => exact ⟨.onFalse, rfl⟩

theorem update_plain_eq_iff :
    Function.update φ t .unconditional c = arm.flow ↔ φ c = arm.flow ∧ c ≠ t := by
  by_cases hct : c = t
  · rw [hct, update_self]
    exact iff_of_false arm.flow_ne.symm fun h => h.2 rfl
  · rw [update_of_ne hct, and_iff_left hct]

theorem update_flow_eq_iff :
    Function.update φ t arm.flow c = a.flow ↔ (c = t ∧ a = arm) ∨ (φ c = a.flow ∧ c ≠ t) := by
  by_cases hct : c = t
  · rw [hct, update_self]
    exact ⟨fun h => .inl ⟨rfl, (flow_injective h).symm⟩, fun h => by
      rcases h with ⟨-, rfl⟩ | ⟨-, hne⟩
      · rfl
      · exact absurd rfl hne⟩
  · rw [update_of_ne hct]
    exact ⟨fun h => .inr ⟨h, hct⟩, fun h => by
      rcases h with ⟨rfl, -⟩ | ⟨h, -⟩
      · exact absurd rfl hct
      · exact h⟩

end Arm

namespace Branch

variable {β : Branch} {arm a : Arm}

def Tested (β : Branch) (φ : BlockId → Flow) : Prop :=
  ∀ t, φ t ≠ .unconditional → β.isTest = true

theorem Tested.update_plain (h : β.Tested φ) (t : BlockId) :
    β.Tested (Function.update φ t .unconditional) := by
  intro c hc
  by_cases hct : c = t
  · rw [hct, update_self] at hc
    exact absurd rfl hc
  · rw [update_of_ne hct] at hc
    exact h c hc

theorem Tested.redirect {q : Bool} (h : β.Tested φ) : (β.redirect old new).Tested
    (if q then Function.update φ old .unconditional
    else Function.update (Function.update φ old .unconditional) new (φ old)) := by
  by_cases hold : φ old = .unconditional
  · rw [hold]
    split
    · exact h.update_plain old
    · exact (h.update_plain old).update_plain new
  · exact fun _ _ => h old hold

theorem Tested.adopt {q : Bool} {flow : Flow} (h : β.Tested φ) :
    (β.adopt b flow).Tested (if q then φ else Function.update φ b flow) := by
  cases flow with
  | unconditional =>
      split
      · exact h
      · exact h.update_plain b
  | onTrue => exact fun _ _ => rfl
  | onFalse => exact fun _ _ => rfl

/-- An edge with the flow of an arm is that arm, and no arm is a plain edge. -/
structure InStep (β : Branch) (φ : BlockId → Flow) : Prop where
  isTest : ∀ arm t, β.target? arm = some t → β.isTest = true
  target : ∀ arm t, φ t = arm.flow → β.target? arm = some t
  flow : ∀ arm t, β.target? arm = some t → φ t ≠ .unconditional

theorem target?_aim : (β.aim arm t).target? a = if a = arm then some t else β.target? a :=
  Function.update_apply ..

theorem target?_drop_eq_some_iff :
    (β.drop t).target? arm = some c ↔ β.target? arm = some c ∧ c ≠ t := by
  simp only [drop]
  by_cases h : β.target? arm = some t
  · rw [if_pos h, h]
    simp [eq_comm]
  · rw [if_neg h]
    exact ⟨fun hc => ⟨hc, fun e => h (e ▸ hc)⟩, And.left⟩

theorem target?_redirect_eq_some_iff : (β.redirect old new).target? arm = some c ↔
    (β.target? arm = some old ∧ c = new) ∨ (β.target? arm = some c ∧ c ≠ old) := by
  simp only [redirect]
  by_cases h : β.target? arm = some old
  · rw [if_pos h, h]
    simp [eq_comm]
  · rw [if_neg h]
    simp only [h, false_and, false_or]
    exact ⟨fun hc => ⟨hc, fun e => h (e ▸ hc)⟩, And.left⟩

namespace InStep

variable (h : β.InStep φ)

include h

theorem flow_eq_of (hne : φ t ≠ .unconditional) :
    ∃ arm : Arm, φ t = arm.flow ∧ β.target? arm = some t := by
  obtain ⟨arm, harm⟩ := Arm.exists_flow_eq hne
  exact ⟨arm, harm, h.target arm t harm⟩

theorem drop (t : BlockId) : (β.drop t).InStep (Function.update φ t .unconditional) := by
  refine ⟨fun arm c hc => h.isTest arm c (target?_drop_eq_some_iff.mp hc).1, fun arm c hc => ?_,
    fun arm c hc => ?_⟩
  · obtain ⟨hc, hct⟩ := Arm.update_plain_eq_iff.mp hc
    exact target?_drop_eq_some_iff.mpr ⟨h.target arm c hc, hct⟩
  · obtain ⟨hc, hct⟩ := target?_drop_eq_some_iff.mp hc
    rw [update_of_ne hct]
    exact h.flow arm c hc

theorem aim_iff :
    (β.aim arm t).InStep (Function.update (Flowgraph.freed φ (β.target? arm) t) t arm.flow) ↔
      ∀ o, β.target? arm = some o → β.target? arm.other = some o → o = t := by
  constructor
  · intro hstep o ho hother
    by_contra hot
    have htarget : (β.aim arm t).target? arm.other = some o := by
      rw [target?_aim, if_neg arm.other_ne, hother]
    refine hstep.flow arm.other o htarget ?_
    rw [update_of_ne hot, Flowgraph.freed, if_pos ⟨ho, hot⟩]
  · intro hshared
    refine ⟨fun _ _ _ => rfl, fun a c hc => ?_, fun a c hc => ?_⟩
    · rcases Arm.update_flow_eq_iff.mp hc with ⟨rfl, rfl⟩ | ⟨hflow, hct⟩
      · rw [target?_aim, if_pos rfl]
      rw [Flowgraph.freed] at hflow
      split at hflow
      · exact absurd hflow.symm a.flow_ne
      · rename_i hfree
        have htarget := h.target a c hflow
        have hne : a ≠ arm := by
          rintro rfl
          exact hfree ⟨htarget, hct⟩
        rw [target?_aim, if_neg hne, htarget]
    · by_cases hct : c = t
      · rw [hct, update_self]
        exact arm.flow_ne
      rw [target?_aim] at hc
      split at hc
      · exact absurd (Option.some.inj hc).symm hct
      · rename_i ha
        rw [update_of_ne hct, Flowgraph.freed, if_neg]
        · exact h.flow a c hc
        · exact fun hfree => hct (hshared c hfree.1 (Arm.eq_other ha ▸ hc))

theorem isTest_redirect (hc : (β.redirect old new).target? arm = some c) : β.isTest = true := by
  rcases target?_redirect_eq_some_iff.mp hc with ⟨hc, -⟩ | ⟨hc, -⟩
  · exact h.isTest arm old hc
  · exact h.isTest arm c hc

theorem redirect_merge_iff (hne : old ≠ new) :
    (β.redirect old new).InStep (Function.update φ old .unconditional) ↔
      (φ old ≠ .unconditional → φ new ≠ .unconditional) := by
  constructor
  · intro hstep hold
    obtain ⟨arm, -, harm⟩ := h.flow_eq_of hold
    have hnew := hstep.flow arm new (target?_redirect_eq_some_iff.mpr (.inl ⟨harm, rfl⟩))
    rwa [update_of_ne hne.symm] at hnew
  · intro hmerge
    refine ⟨fun arm c hc => h.isTest_redirect hc, fun arm c hc => ?_, fun arm c hc => ?_⟩
    · obtain ⟨hc, hco⟩ := Arm.update_plain_eq_iff.mp hc
      exact target?_redirect_eq_some_iff.mpr (.inr ⟨h.target arm c hc, hco⟩)
    · rcases target?_redirect_eq_some_iff.mp hc with ⟨hold, rfl⟩ | ⟨hc, hco⟩
      · rw [update_of_ne hne.symm]
        exact hmerge (h.flow arm old hold)
      · rw [update_of_ne hco]
        exact h.flow arm c hc

theorem redirect_move (hne : old ≠ new) (hnew : φ new = .unconditional) :
    (β.redirect old new).InStep
      (Function.update (Function.update φ old .unconditional) new (φ old)) := by
  refine ⟨fun arm c hc => h.isTest_redirect hc, fun arm c hc => ?_, fun arm c hc => ?_⟩
  · by_cases hcn : c = new
    · rw [hcn, update_self] at hc
      exact target?_redirect_eq_some_iff.mpr (.inl ⟨h.target arm old hc, hcn⟩)
    · rw [update_of_ne hcn] at hc
      obtain ⟨hc, hco⟩ := Arm.update_plain_eq_iff.mp hc
      exact target?_redirect_eq_some_iff.mpr (.inr ⟨h.target arm c hc, hco⟩)
  · rcases target?_redirect_eq_some_iff.mp hc with ⟨hold, rfl⟩ | ⟨hc, hco⟩
    · rw [update_self]
      exact h.flow arm old hold
    · have hflow := h.flow arm c hc
      have hcn : c ≠ new := fun e => hflow (e ▸ hnew)
      rwa [update_of_ne hcn, update_of_ne hco]

theorem adopt_listed_iff :
    (β.aim arm b).InStep φ ↔ (∀ o, φ o = arm.flow → o = b) ∧ φ b ≠ .unconditional := by
  constructor
  · intro hstep
    refine ⟨fun o ho => ?_, hstep.flow arm b (by rw [target?_aim, if_pos rfl])⟩
    have htarget := hstep.target arm o ho
    rw [target?_aim, if_pos rfl] at htarget
    exact (Option.some.inj htarget).symm
  · rintro ⟨honly, hb⟩
    refine ⟨fun _ _ _ => rfl, fun a c hc => ?_, fun a c hc => ?_⟩
    · rw [target?_aim]
      by_cases ha : a = arm
      · rw [if_pos ha, honly c (ha ▸ hc)]
      · rw [if_neg ha, h.target a c hc]
    · rw [target?_aim] at hc
      split at hc
      · rwa [← Option.some.inj hc]
      · exact h.flow a c hc

theorem adopt_fresh_iff :
    (β.aim arm b).InStep (Function.update φ b arm.flow) ↔ ∀ o, φ o = arm.flow → o = b := by
  constructor
  · intro hstep o ho
    by_contra hob
    have htarget := hstep.target arm o (by rw [update_of_ne hob, ho])
    rw [target?_aim, if_pos rfl] at htarget
    exact hob (Option.some.inj htarget).symm
  · intro honly
    refine ⟨fun _ _ _ => rfl, fun a c hc => ?_, fun a c hc => ?_⟩
    · rcases Arm.update_flow_eq_iff.mp hc with ⟨rfl, rfl⟩ | ⟨hflow, hcb⟩
      · rw [target?_aim, if_pos rfl]
      · have hne : a ≠ arm := by
          rintro rfl
          exact hcb (honly c hflow)
        rw [target?_aim, if_neg hne, h.target a c hflow]
    · by_cases hcb : c = b
      · rw [hcb, update_self]
        exact arm.flow_ne
      · rw [target?_aim] at hc
        split at hc
        · exact absurd (Option.some.inj hc).symm hcb
        · rw [update_of_ne hcb]
          exact h.flow a c hc

end InStep

end Branch

namespace Flowgraph

variable {R : Branch → (BlockId → Flow) → Prop} {B : BlockId → Option Branch}
  {F : BlockId → BlockId → Flow} {g g' : Flowgraph π} {β β' : Branch} {arm : Arm}

def Bears (R : Branch → (BlockId → Flow) → Prop) (B : BlockId → Option Branch)
    (F : BlockId → BlockId → Flow) : Prop :=
  ∀ b β, B b = some β → R β (F b)

theorem Bears.update (h : Bears R B F) {o : Option Branch} (ho : ∀ β, o = some β → R β φ) :
    Bears R (Function.update B b o) (Function.update F b φ) := by
  intro c β hβ
  by_cases hc : c = b
  · subst hc
    rw [update_self] at hβ ⊢
    exact ho β hβ
  · rw [update_of_ne hc] at hβ ⊢
    exact h c β hβ

theorem bears_update_iff (h : Bears R B F) :
    Bears R (Function.update B b (some β)) (Function.update F b φ) ↔ R β φ := by
  constructor
  · intro hb
    simpa using hb b β (update_self ..)
  · intro hβ
    apply h.update
    rintro _ ⟨⟩
    exact hβ

theorem Bears.map (h : Bears R B F) (k : Branch → Branch) (hk : ∀ β, R β (F b) → R (k β) φ) :
    Bears R (Function.update B b ((B b).map k)) (Function.update F b φ) := by
  apply h.update
  intro β hβ
  obtain ⟨γ, hγ, rfl⟩ := Option.map_eq_some_iff.mp hβ
  exact hk γ (h b γ hγ)

structure Branchwise (R : Branch → (BlockId → Flow) → Prop) : Prop where
  blank : R .blank fun _ => .unconditional
  test : ∀ β φ, R β φ → R β.test φ
  drop : ∀ β φ t, R β φ → R (β.drop t) (Function.update φ t .unconditional)

theorem Branchwise.append (hR : Branchwise R) (hcons : Consistent g)
    (h : Bears R g.branch? g.edges.flow) : Bears R g.append.branch? g.append.edges.flow := by
  have hflow : g.append.edges.flow = g.edges.flow := flow_invalidate
  intro b β hβ
  rw [branch?_append] at hβ
  rw [hflow]
  split at hβ
  · rename_i hb
    cases hβ
    have hplain : g.edges.flow b = fun _ => .unconditional := by
      funext c
      exact EdgeIndex.flow_of_not_holds fun hbc => not_live_size (hb ▸ (hcons.ends b c hbc).1)
    rw [hplain]
    exact hR.blank
  · exact h b β hβ

theorem Branchwise.remove (hR : Branchwise R) (h : Bears R g.branch? g.edges.flow) (b : BlockId)
    (x : Block π) : Bears R (g.remove b x).branch? (g.remove b x).edges.flow := by
  intro c β hβ
  rw [branch?_remove] at hβ
  split at hβ
  · cases hβ
  · rename_i hc
    rw [flow_remove hc]
    split at hβ
    · rename_i hcp
      obtain ⟨γ, hγ, rfl⟩ := Option.map_eq_some_iff.mp hβ
      rw [if_pos hcp]
      exact hR.drop γ _ b (h c γ hγ)
    · rename_i hcp
      rw [if_neg hcp]
      exact h c β hβ

theorem Branchwise.steady (hR : Branchwise R) :
    Steady fun g : Flowgraph π => Bears R g.branch? g.edges.flow ∧ Consistent g := by
  rintro g g' hchange ⟨h, hcons⟩
  refine ⟨?_, Consistent.steady g g' hchange hcons⟩
  cases hchange with
  | append => exact hR.append hcons h
  | @link u v _ _ =>
      rw [branch?_link, flow_link]
      split
      · exact h
      · rename_i huv
        rwa [← EdgeIndex.flow_of_not_holds huv, update_eq_self, update_eq_self]
  | @designate s b _ _ =>
      obtain ⟨entry, exit, hname⟩ := exists_name (g := g) s b
      rw [designate, hname, branch?_invalidate, flow_invalidate, branch?_update_of_eq]
      · exact h
      · exact fun _ => by cases s <;> exact Block.branch_eq_of rfl rfl rfl
  | test b =>
      have hb := h.map (b := b) .test fun β hβ => hR.test β _ hβ
      rw [update_eq_self] at hb
      rw [branch?_invalidate, flow_invalidate, branch?_update .test fun x => x.branch_test]
      exact hb
  | push =>
      rw [branch?_update_of_eq]
      · exact h
      · exact fun _ => Block.branch_eq_of rfl rfl rfl
  | passes =>
      rw [branch?_invalidate, flow_invalidate]
      exact h
  | remove => exact hR.remove h _ _
  | @removeEdge u v _ =>
      rw [branch?_removeEdge, flow_removeEdge]
      exact h.map (·.drop v) fun β => hR.drop β _ v
  | invalidate =>
      rw [branch?_invalidate, flow_invalidate]
      exact h
  | record =>
      rw [branch?_record, flow_record]
      exact h
  | arrange => exact h

theorem branchwise_inStep : Branchwise Branch.InStep where
  blank := by
    refine ⟨?_, ?_, ?_⟩
    · rintro arm t ⟨⟩
    · exact fun arm t h => absurd h.symm arm.flow_ne
    · rintro arm t ⟨⟩
  test β φ h := ⟨fun _ _ _ => rfl, h.target, h.flow⟩
  drop β φ t h := h.drop t

theorem branchwise_tested : Branchwise Branch.Tested where
  blank _ ht := absurd rfl ht
  test _ _ _ _ _ := rfl
  drop _ _ t h := h.update_plain t

theorem branch?_of_mem_succs (h : v ∈ g.succs u) : ∃ β, g.branch? u = some β := by
  rw [succs] at h
  cases hx : g.block? u with
  | none => simp [hx] at h
  | some x => exact ⟨x.branch, by rw [branch?, hx, Option.map_some]⟩

theorem branch?_of_live (h : g.Live b) : ∃ β, g.branch? b = some β := by
  obtain ⟨x, hx⟩ := h
  exact ⟨x.branch, by rw [branch?, hx, Option.map_some]⟩

theorem tested_lasting : Lasting fun g : Flowgraph π =>
    Bears Branch.Tested g.branch? g.edges.flow ∧ Consistent g := by
  intro g g' hchange hg
  cases hchange with
  | plain hplain => exact branchwise_tested.steady g g' hplain hg
  | aim arm hb htarget =>
      obtain ⟨β, hβ⟩ := branch?_of_live hb
      refine ⟨?_, hg.2.aim arm hb htarget⟩
      rw [branch?_aim hβ, flow_aim hβ, bears_update_iff hg.1]
      exact fun _ _ => rfl
  | @redirectSuccessor b old new hold hne hnew =>
      obtain ⟨β, hβ⟩ := branch?_of_mem_succs hold
      refine ⟨?_, hg.2.redirectSuccessor hold hne hnew⟩
      rw [branch?_redirectSuccessor hβ, flow_redirectSuccessor hne, bears_update_iff hg.1]
      exact (hg.1 b β hβ).redirect
  | @redirectPredecessor b old new hold hne hnew =>
      obtain ⟨β, hβ⟩ := branch?_of_live (hg.2.ends old b (hg.2.mem_preds_iff.mp hold)).1
      obtain ⟨β', hβ'⟩ := branch?_of_live hnew
      refine ⟨?_, hg.2.redirectPredecessor hold hne hnew⟩
      rw [branch?_redirectPredecessor hne hβ hβ', flow_redirectPredecessor hne, bears_update_iff]
      · exact (hg.1 new β' hβ').adopt
      · exact (bears_update_iff hg.1).mpr (branchwise_tested.drop β _ b (hg.1 old β hβ))

def InStep (g : Flowgraph π) : Prop :=
  Bears Branch.InStep g.branch? g.edges.flow

theorem inStep_aim_iff (h : g.InStep) (hβ : g.branch? b = some β) : (g.aim b arm t).InStep ↔
    ∀ o, β.target? arm = some o → β.target? arm.other = some o → o = t := by
  rw [InStep, branch?_aim hβ, flow_aim hβ, bears_update_iff h]
  exact (h b β hβ).aim_iff

theorem inStep_redirectSuccessor_iff (h : g.InStep) (hβ : g.branch? b = some β)
    (hne : old ≠ new) : (g.redirectSuccessor b old new).InStep ↔
      (g.edges.flow b old ≠ .unconditional → g.edges.Holds b new →
        g.edges.flow b new ≠ .unconditional) := by
  rw [InStep, branch?_redirectSuccessor hβ, flow_redirectSuccessor hne, bears_update_iff h]
  by_cases hnew : g.edges.contains b new = true
  · rw [if_pos hnew, (h b β hβ).redirect_merge_iff hne]
    exact forall_congr' fun _ => ⟨fun hflow _ => hflow, fun hflow => hflow hnew⟩
  · rw [if_neg hnew]
    refine iff_of_true ?_ fun _ hholds => absurd hholds hnew
    exact (h b β hβ).redirect_move hne (EdgeIndex.flow_of_not_holds hnew)

theorem inStep_redirectPredecessor_iff (h : g.InStep) (hβ : g.branch? old = some β)
    (hβ' : g.branch? new = some β') (hne : old ≠ new) :
    (g.redirectPredecessor b old new).InStep ↔
      (g.edges.flow old b ≠ .unconditional →
        (∀ o, g.edges.flow new o = g.edges.flow old b → o = b) ∧
        (g.edges.Holds new b → g.edges.flow new b ≠ .unconditional)) := by
  have hdrop : Bears Branch.InStep (Function.update g.branch? old (some (β.drop b)))
      (Function.update g.edges.flow old (Function.update (g.edges.flow old) b .unconditional)) :=
    (bears_update_iff h).mpr ((h old β hβ).drop b)
  have hstep : β'.InStep (g.edges.flow new) := h new β' hβ'
  rw [InStep, branch?_redirectPredecessor hne hβ hβ', flow_redirectPredecessor hne,
    bears_update_iff hdrop]
  by_cases hflow : g.edges.flow old b = .unconditional
  · rw [hflow]
    refine iff_of_true ?_ fun h => absurd rfl h
    split
    · exact hstep
    · rename_i hnew
      have hsame := update_eq_self b (g.edges.flow new)
      rw [EdgeIndex.flow_of_not_holds hnew] at hsame
      rw [hsame]
      exact hstep
  · obtain ⟨arm, harm⟩ := Arm.exists_flow_eq hflow
    have hadopt : β'.adopt b arm.flow = β'.aim arm b := by cases arm <;> rfl
    rw [harm, hadopt]
    by_cases hnew : g.edges.contains new b = true
    · rw [if_pos hnew, hstep.adopt_listed_iff]
      exact ⟨fun h _ => ⟨h.1, fun _ => h.2⟩, fun h => ⟨(h arm.flow_ne).1, (h arm.flow_ne).2 hnew⟩⟩
    · rw [if_neg hnew, hstep.adopt_fresh_iff]
      exact ⟨fun h _ => ⟨h, fun hholds => absurd hholds hnew⟩, fun h => (h arm.flow_ne).1⟩

end Flowgraph

end ControlFlow

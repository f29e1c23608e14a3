import ControlFlow.Proofs.Flowgraph.Outcome

namespace ControlFlow

open Flowgraph

variable {π : Type} {b c entry : BlockId} {ds : List BlockId} {g g' k : Flowgraph π}

namespace Block

theorem forks_congr {x y : Block π} (hbranch : y.branch = x.branch)
    (hsuccs : y.succs.toList = x.succs.toList) : y.Forks ↔ x.Forks := by
  have htarget : y.target? = x.target? := congrArg Branch.target? hbranch
  have htrue : y.onTrue = x.onTrue := congrFun htarget .onTrue
  have hfalse : y.onFalse = x.onFalse := congrFun htarget .onFalse
  rw [Forks, Forks, htrue, hfalse, Array.toList_inj.mp hsuccs]

theorem Forks.length_succs {x : Block π} (h : x.Forks) (hx : g.block? b = some x) :
    (g.succs b).length = 2 := by
  obtain ⟨t, f, -, -, -, hsize, -⟩ := h
  rw [Flowgraph.succs, hx, Option.map_some, Option.getD_some, Array.length_toList, hsize]

end Block

namespace Flowgraph

theorem Forked.length_succs (h : g.Forked) (htest : g.isTest b = true) :
    (g.succs b).length = 2 := by
  obtain ⟨x, hx, htest⟩ := isTest_eq_true_iff.mp htest
  exact (h b x hx htest).length_succs hx

theorem Forked.isTest_of_bypassable {s : BlockId} (h : g.Forked) (hb : g.Bypassable b s) :
    g.isTest b = false := by
  rw [Bool.eq_false_iff]
  intro htest
  have htwo := h.length_succs htest
  rw [hb.succs_eq] at htwo
  cases htwo

structure Forking (T : BlockId → Bool) (g : Flowgraph π) : Prop where
  tests : ∀ b, g.isTest b = T b
  forked : g.Forked
  consistent : Consistent g

end Flowgraph

namespace Edit

theorem unchanged_or_bypassed (hg : Consistent g) (b : BlockId) :
    ((bypass b).exec g).2 = g ∨ ∃ s, g.Bypassed b s ((bypass b).exec g).2 := by
  by_cases hb : g.Live b
  · by_cases h : ∃ s, g.Bypassable b s
    · obtain ⟨s, h⟩ := h
      obtain ⟨g', hexec, hbypassed⟩ := exists_bypassed hg h
      rw [hexec]
      exact .inr ⟨s, hbypassed⟩
    · rw [exec_bypass_of_not_bypassable hg hb (not_exists.mp h)]
      exact .inl rfl
  · rw [exec_bypass_of_not_live hb]
    exact .inl rfl

theorem keeps_bypass_forking (T : BlockId → Bool) (b : BlockId) :
    Keeps (Forking (π := π) T) (bypass b) := by
  intro g h
  obtain ⟨hforked, hcons⟩ := keeps_bypass_forked b g ⟨h.forked, h.consistent⟩
  refine ⟨fun c => ?_, hforked, hcons⟩
  rw [← h.tests c]
  rcases unchanged_or_bypassed h.consistent b with heq | ⟨s, hbypassed⟩
  · rw [heq]
  · by_cases hc : c = b
    · subst hc
      have hgone : ¬Flowgraph.Live ((bypass c).exec g).2 c :=
        fun hlive => (hbypassed.live_iff.mp hlive).2 rfl
      rw [isTest_of_not_live hgone, h.forked.isTest_of_bypassable hbypassed.bypassable]
    · exact hbypassed.isTest_eq hc

end Edit

namespace Command

def bypasses : Command π → Bool
  | bypass _ | bypassAll => true
  | _ => false

theorem forking_apply {T : BlockId → Bool} (h : Forking T g) (d : Command π)
    (hd : d.bypasses = true) : Forking T (d.apply g) := by
  cases d with
  | bypass b => exact Edit.keeps_bypass_forking T b g h
  | bypassAll => exact Edit.keeps_bypassAll_of (Edit.keeps_bypass_forking T) g h
  | _ => cases hd

theorem forking_foldl {T : BlockId → Bool} (h : Forking T g) {ds : List (Command π)}
    (hds : ∀ d ∈ ds, d.bypasses = true) : Forking T (ds.foldl apply g) :=
  List.foldlRecOn ds _ h fun _ hk d hd => forking_apply hk d (hds d hd)

end Command

namespace Flowgraph

theorem bypass_keeps_forks_after (passes : Passes) (cs : List (Command π)) :
    let g := after passes cs
    ((∀ b, ¬g.Misforked b) → ∀ ds : List (Command π), (∀ d ∈ ds, d.bypasses = true) →
      let k := ds.foldl Command.apply g
      (∀ b, k.isTest b = g.isTest b) ∧ ∀ b, ¬k.Misforked b) ∧
    (∀ k, (Edit.runIf g.passes.prune Edit.prune).exec g = (.ok (), k) →
      k.firstViolation? = none →
        ∃ k', (Edit.runIf g.passes.bypass Edit.bypassAll).exec k = (.ok (), k') ∧
          k'.firstViolation? = none ∧ (∀ b, k'.isTest b = k.isTest b) ∧ ∀ b, ¬k'.Misforked b) ∧
    ∀ h, Edit.analyze.exec g = (.ok (), h) → h.firstViolation? = none ∧ ∀ b, ¬h.Misforked b := by
  intro g
  have hg : Consistent g := consistent_after passes cs
  refine ⟨fun hforked ds hds => ?_, fun k hk hvalid => ?_, fun h hok => ?_⟩
  · have hforking := Command.forking_foldl ⟨fun _ => rfl, hg.forked_iff.mpr hforked, hg⟩ hds
    exact ⟨hforking.tests, hforking.consistent.forked_iff.mp hforking.forked⟩
  · have hkc : Consistent k :=
      (Edit.Keeps.runIf (Edit.keeps_prune Consistent.steady)).of_exec hg hk
    have hkf : Forking k.isTest k :=
      ⟨fun _ => rfl, firstViolation?_eq_none_iff.mp hvalid, hkc⟩
    have hbypass : ∃ n k', Edit.bypassAll.exec k = (.ok n, k') ∧ Forking k.isTest k' := by
      obtain ⟨n, k', hexec, -⟩ := Edit.exists_bypassAll hkc
      exact ⟨n, k', hexec,
        (Edit.keeps_bypassAll_of (Edit.keeps_bypass_forking k.isTest)).of_exec hkf hexec⟩
    obtain ⟨k', hexec, hforking⟩ := Edit.exists_runIf g.passes.bypass hkf hbypass
    exact ⟨k', hexec, firstViolation?_eq_none_iff.mpr hforking.forked, hforking.tests,
      hforking.consistent.forked_iff.mp hforking.forked⟩
  · have hforked := Edit.forked_of_analyze hg hok
    have hh : Consistent (Command.apply g .analyze) :=
      (Command.keeps_apply Consistent.lasting ⟨hg, hg⟩ .analyze).1
    rw [Command.apply, hok] at hh
    exact ⟨firstViolation?_eq_none_iff.mpr hforked, hh.forked_iff.mp hforked⟩

def diamondHistory : List (Command Nat) :=
  [.addSentinels, .addArm .onTrue 0, .addArm .onFalse 0, .connectFrom 1 [2, 3]]

theorem bypass_keeps_forks_after_diamondHistory :
    let g := after ⟨true, true, false, false⟩ diamondHistory
    let ds : List (Command Nat) := [.bypass 2, .bypass 3, .bypassAll]
    let k := ds.foldl Command.apply g
    (∀ b, ¬g.Misforked b) ∧ (∀ d ∈ ds, d.bypasses = true) ∧ k.succs 0 = [1, 3] ∧
      k.isTest 0 = true ∧ (∀ b, k.isTest b = g.isTest b) ∧ (∀ b, ¬k.Misforked b) ∧
      ∃ h, Edit.analyze.exec g = (.ok (), h) ∧ ∀ b, ¬h.Misforked b := by
  intro g ds k
  have hvalid : (after ⟨true, true, false, false⟩ diamondHistory).firstViolation? = none := by cbv
  have hforked : ∀ b, ¬g.Misforked b :=
    (consistent_after _ _).forked_iff.mp (firstViolation?_eq_none_iff.mp hvalid)
  have hds : ∀ d ∈ ds, d.bypasses = true := by simp [ds, Command.bypasses]
  have hsuccs : ([.bypass 2, .bypass 3, .bypassAll].foldl Command.apply
      (after ⟨true, true, false, false⟩ diamondHistory)).succs 0 = [1, 3] := by cbv
  have htest : (after ⟨true, true, false, false⟩ diamondHistory).isTest 0 = true := by cbv
  have hok : (Edit.analyze.exec (after ⟨true, true, false, false⟩ diamondHistory)).1 = .ok () := by
    cbv
  have hexec : Edit.analyze.exec g = (.ok (), (Edit.analyze.exec g).2) := Prod.ext hok rfl
  obtain ⟨hbypass, -, hanalyze⟩ :=
    bypass_keeps_forks_after ⟨true, true, false, false⟩ diamondHistory
  obtain ⟨htests, hkforked⟩ := hbypass hforked ds hds
  exact ⟨hforked, hds, hsuccs, (htests 0).trans htest, htests, hkforked, _, hexec,
    (hanalyze _ hexec).2⟩

/-- A test that pruning keeps for being the exit and takes a successor from. -/
def Torn (g : Flowgraph π) (entry b : BlockId) : Prop :=
  g.exit = some b ∧ g.isTest b = true ∧ ¬g.view.Reaches entry b ∧
    ∃ v ∈ g.succs b, v ≠ b ∧ ¬g.view.Reaches entry v

namespace Removed

variable (h : g.Removed ds g')

include h

theorem forks (hg : Consistent g) (hforked : g.Forked) (hc : c ∉ ds)
    (hkept : ∀ d ∈ ds, d ∉ g.succs c) {y : Block π} (hy : g'.block? c = some y)
    (htest : y.isTest = true) : y.Forks := by
  have hbranch := h.branch?_eq c hc hkept
  rw [branch?, hy, Option.map_some] at hbranch
  obtain ⟨x, hx, hxy⟩ := Option.map_eq_some_iff.mp hbranch.symm
  have hsuccs : g'.succs c = g.succs c := by
    rw [h.succs_eq hg hc]
    refine List.filter_eq_self.mpr fun v hv => decide_eq_true fun hvds => hkept v hvds hv
  rw [succs, succs, hy, hx] at hsuccs
  have hxtest : x.isTest = true := (congrArg Branch.isTest hxy).trans htest
  exact (Block.forks_congr hxy.symm hsuccs).mpr (hforked c x hx hxtest)

theorem length_succs_lt (hg : Consistent g) (hc : c ∉ ds) {d : BlockId} (hd : d ∈ ds)
    (hmem : d ∈ g.succs c) : (g'.succs c).length < (g.succs c).length := by
  rw [h.succs_eq hg hc]
  exact List.length_filter_lt_length_iff_exists.mpr ⟨d, hmem, by simpa using hd⟩

theorem misforked_iff (hg : Consistent g) (hforked : g.Forked) :
    g'.Misforked b ↔ b ∉ ds ∧ g.isTest b = true ∧ ∃ d ∈ ds, d ∈ g.succs b := by
  rw [h.consistent.misforked_iff]
  constructor
  · rintro ⟨y, hy, htest, hforks⟩
    have hb : b ∉ ds := (h.live_iff.mp ⟨y, hy⟩).2
    refine ⟨hb, h.isTest_eq hb ▸ isTest_eq_true_iff.mpr ⟨y, hy, htest⟩, ?_⟩
    by_contra hkept
    exact hforks (h.forks hg hforked hb (by simpa using hkept) hy htest)
  · rintro ⟨hb, htest, d, hd, hmem⟩
    have hlt := h.length_succs_lt hg hb hd hmem
    rw [hforked.length_succs htest] at hlt
    obtain ⟨y, hy, htest'⟩ := isTest_eq_true_iff.mp ((h.isTest_eq hb).trans htest)
    exact ⟨y, hy, htest', fun hforks => hlt.ne (hforks.length_succs hy)⟩

end Removed

end Flowgraph

namespace Edit

theorem exists_pruned_torn (hg : Consistent g) (hentry : g.entry = some entry)
    (hforked : g.Forked) :
    ∃ n g', prune.exec g = (.ok n, g') ∧ Consistent g' ∧
      (∀ b, g'.Live b → g'.isTest b = g.isTest b) ∧ ∀ b, g'.Misforked b ↔ g.Torn entry b := by
  obtain ⟨ds, g', hexec, hremoved, -, hmem, -, -⟩ := exists_pruned hg hentry
  refine ⟨_, g', hexec, hremoved.consistent,
    fun b hb => hremoved.isTest_eq (hremoved.live_iff.mp hb).2, fun b => ?_⟩
  rw [hremoved.misforked_iff hg hforked]
  constructor
  · rintro ⟨hb, htest, d, hd, hstep⟩
    obtain ⟨x, hx, -⟩ := isTest_eq_true_iff.mp htest
    obtain ⟨-, hdreach, hdexit⟩ := (hmem d).mp hd
    have hreach : ¬g.view.Reaches entry b := fun hbreach => hdreach (hbreach.tail hstep)
    have hexit : g.exit = some b := by
      by_contra hexit
      exact hb ((hmem b).mpr ⟨⟨x, hx⟩, hreach, hexit⟩)
    refine ⟨hexit, htest, hreach, d, hstep, ?_, hdreach⟩
    rintro rfl
    exact hdexit hexit
  · rintro ⟨hexit, htest, -, v, hv, hne, hvreach⟩
    refine ⟨fun hb => ((hmem b).mp hb).2.2 hexit, htest, v, (hmem v).mpr ⟨?_, hvreach, ?_⟩, hv⟩
    · exact (hg.ends b v (hg.mem_succs_iff.mp hv)).2
    · rw [hexit]
      exact fun e => hne (Option.some.inj e).symm

end Edit

namespace Flowgraph

theorem prune_forks_after (passes : Passes) (cs : List (Command π))
    (hentry : (after passes cs).entry = some entry)
    (hforked : ∀ b, ¬(after passes cs).Misforked b) :
    let g := after passes cs
    ∃ n g', Edit.prune.exec g = (.ok n, g') ∧
      (∀ b, g'.Live b → g'.isTest b = g.isTest b) ∧ (∀ b, g'.Misforked b ↔ g.Torn entry b) ∧
      (g.exit ≠ none → ((Edit.analyze.exec g).1 = .ok () ↔
        (g.passes.prune = true → ∀ b, ¬g.Torn entry b))) := by
  intro g
  have hg : Consistent g := consistent_after passes cs
  have hforked' : g.Forked := hg.forked_iff.mpr hforked
  obtain ⟨n, g', hexec, hg', htests, htorn⟩ := Edit.exists_pruned_torn hg hentry hforked'
  refine ⟨n, g', hexec, htests, htorn, fun hexit => ?_⟩
  obtain ⟨exit, hexit⟩ := Option.ne_none_iff_exists'.mp hexit
  obtain ⟨k, hk, hkc, hout⟩ := Edit.exec_analyze_fst hg hentry hexit
  have hok : (Edit.analyze.exec g).1 = .ok () ↔ ∀ b, ¬k.Misforked b := by
    rw [← hkc.forked_iff, ← firstViolation?_eq_none_iff, hout]
    cases k.firstViolation? <;> simp
  rw [hok]
  cases hprune : g.passes.prune with
  | false =>
      rw [hprune] at hk
      cases hk
      exact iff_of_true hforked nofun
  | true =>
      rw [hprune, Edit.runIf, Edit.exec_bind_of_ok hexec] at hk
      cases hk
      simp only [htorn, forall_const]

def aloofHistory : List (Command Nat) :=
  [.addSentinels, .addArm .onTrue 0, .setArm .onFalse 0 0, .addBlock [], .setArm .onTrue 3 1,
    .setArm .onFalse 3 2]

theorem prune_forks_after_aloofHistory :
    let g := after .usual aloofHistory
    g.entry = some 0 ∧ (∀ b, ¬g.Misforked b) ∧ g.isTest 3 = true ∧
      ∃ n g', Edit.prune.exec g = (.ok n, g') ∧ (∀ b, g'.Live b → g'.isTest b = g.isTest b) ∧
        (∀ b, ¬g'.Misforked b) ∧ (Edit.analyze.exec g).1 = .ok () := by
  intro g
  have hentry : (after .usual aloofHistory).entry = some 0 := by cbv
  have hvalid : (after .usual aloofHistory).firstViolation? = none := by cbv
  have hforked : ∀ b, ¬g.Misforked b :=
    (consistent_after _ _).forked_iff.mp (firstViolation?_eq_none_iff.mp hvalid)
  have hexit : (after .usual aloofHistory).exit = some 1 := by cbv
  have hplain : (after .usual aloofHistory).isTest 1 = false := by cbv
  have htest : (after .usual aloofHistory).isTest 3 = true := by cbv
  have hwhole : ∀ b, ¬g.Torn 0 b := by
    rintro b ⟨hb, hbtest, -⟩
    cases hexit.symm.trans hb
    exact Bool.false_ne_true (hplain.symm.trans hbtest)
  obtain ⟨n, g', hexec, htests, htorn, hanalyze⟩ :=
    prune_forks_after .usual aloofHistory hentry hforked
  refine ⟨hentry, hforked, htest, n, g', hexec, htests,
    fun b hb => hwhole b ((htorn b).mp hb), (hanalyze ?_).mpr fun _ => hwhole⟩
  rw [hexit]
  exact Option.some_ne_none 1

def tornHistory : List (Command Nat) :=
  [.addSentinels, .addArm .onTrue 1, .addArm .onFalse 1]

theorem prune_spoils_exit :
    (after .usual tornHistory).entry = some 0 ∧ (∀ b, ¬(after .usual tornHistory).Misforked b) ∧
      ∃ g', Edit.prune.exec (after .usual tornHistory) = (.ok 2, g') ∧ g'.Misforked 1 ∧
        (Edit.analyze.exec (after .usual tornHistory)).1 = .error (.violation (.armMissing 1)) ∧
        (Edit.analyze.exec (after .bare tornHistory)).1 = .ok () := by
  have hvalid : (after .usual tornHistory).firstViolation? = none := by cbv
  have hpruned : (Edit.prune.exec (after .usual tornHistory)).1 = .ok 2 := by cbv
  have hblock : ((Edit.prune.exec (after .usual tornHistory)).2.block? 1).map (fun x =>
      (x.isTest, x.onTrue)) = some (true, none) := by cbv
  obtain ⟨x, hx, hfields⟩ := Option.map_eq_some_iff.mp hblock
  obtain ⟨htest, htrue⟩ := Prod.mk.inj hfields
  refine ⟨by cbv, (consistent_after _ _).forked_iff.mp (firstViolation?_eq_none_iff.mp hvalid),
    _, Prod.ext hpruned rfl, ⟨x, hx, htest, ?_⟩, by cbv, by cbv⟩
  rintro ⟨t, f, ht, -⟩
  rw [htrue] at ht
  cases ht

end Flowgraph

end ControlFlow

import ControlFlow.Proofs.Flowgraph.Record
import Mathlib.Logic.Function.Basic

namespace ControlFlow

open Function (update_eq_self update_self update_of_ne update_idem)

variable {π : Type} {b c old new s t u v : BlockId} {arm : Arm}

structure Branch where
  isTest : Bool
  target? : Arm → Option BlockId

namespace Branch

def blank : Branch :=
  ⟨false, fun _ => none⟩

def test (β : Branch) : Branch :=
  { β with isTest := true }

def aim (β : Branch) (arm : Arm) (t : BlockId) : Branch :=
  ⟨true, Function.update β.target? arm (some t)⟩

def drop (β : Branch) (t : BlockId) : Branch :=
  { β with target? := fun arm => if β.target? arm = some t then none else β.target? arm }

def redirect (β : Branch) (old new : BlockId) : Branch :=
  { β with target? := fun arm => if β.target? arm = some old then some new else β.target? arm }

def adopt (β : Branch) (b : BlockId) : Flow → Branch
  | .unconditional => β
  | .onTrue => β.aim .onTrue b
  | .onFalse => β.aim .onFalse b

end Branch

namespace Block

variable (x : Block π)

def branch (x : Block π) : Branch :=
  ⟨x.isTest, x.target?⟩

theorem branch_eq_of {x y : Block π} (htest : y.isTest = x.isTest) (htrue : y.onTrue = x.onTrue)
    (hfalse : y.onFalse = x.onFalse) : y.branch = x.branch := by
  rw [branch, branch, htest]
  congr 1
  funext arm
  cases arm with
  | onTrue => exact htrue
  | onFalse => exact hfalse

theorem branch_blank : (blank : Block π).branch = .blank := by
  rw [branch, Branch.blank]
  congr 1
  funext arm
  cases arm <;> rfl

theorem branch_test : { x with isTest := true }.branch = x.branch.test := by
  rw [branch, Branch.test, branch, Branch.mk.injEq]
  refine ⟨rfl, funext fun arm => ?_⟩
  cases arm <;> rfl

theorem branch_dropSucc (t : BlockId) : (x.dropSucc t).branch = x.branch.drop t := by
  rw [branch, Branch.drop]
  congr 1
  funext arm
  cases arm <;> rfl

theorem branch_redirectSucc (old new : BlockId) :
    (x.redirectSucc old new).branch = x.branch.redirect old new := by
  rw [branch, Branch.redirect]
  congr 1
  funext arm
  cases arm <;> rfl

theorem branch_aim (arm : Arm) (t : BlockId) : (x.aim arm t).branch = x.branch.aim arm t := by
  cases arm <;>
  · rw [branch, Branch.aim]
    congr 1
    funext arm
    cases arm <;> rfl

theorem branch_addPred (b : BlockId) : (x.addPred b).branch = x.branch := by
  rw [addPred]
  split
  · rfl
  · exact branch_eq_of rfl rfl rfl

theorem branch_addSucc (b : BlockId) : (x.addSucc b).branch = x.branch := by
  rw [addSucc]
  split
  · rfl
  · exact branch_eq_of rfl rfl rfl

theorem branch_adopt (b : BlockId) (flow : Flow) :
    (Flowgraph.adopt b flow x).branch = x.branch.adopt b flow := by
  cases flow <;> simp only [Flowgraph.adopt, Branch.adopt, branch_aim, branch_addSucc]

end Block

namespace EdgeIndex

variable {x : EdgeIndex} {φ : Flow}

def flow (x : EdgeIndex) (u v : BlockId) : Flow :=
  ((x.label? u v).map (·.flow)).getD .unconditional

theorem flow_of_not_holds (h : ¬x.Holds u v) : x.flow u v = .unconditional := by
  rw [Holds, contains, Bool.not_eq_true, Option.isSome_eq_false_iff, Option.isNone_iff_eq_none] at h
  rw [flow, h]
  rfl

theorem flow_set {l : Label} : (x.set u v l).flow = Function.update x.flow u (Function.update (x.flow u) v l.flow) := by
  funext a c
  rw [flow, label?_set]
  by_cases ha : a = u
  · subst ha
    by_cases hc : c = v
    · simp [hc]
    · simp [hc, Ne.symm hc, flow]
  · simp [ha, Ne.symm ha, flow]

theorem flow_setFlow : (x.setFlow u v φ).flow = Function.update x.flow u (Function.update (x.flow u) v φ) :=
  flow_set

theorem flow_erase :
    (x.erase u v).flow = Function.update x.flow u (Function.update (x.flow u) v .unconditional) := by
  funext a c
  rw [flow, label?_erase]
  by_cases ha : a = u
  · subst ha
    by_cases hc : c = v
    · simp [hc]
    · simp [hc, Ne.symm hc, flow]
  · simp [ha, Ne.symm ha, flow]

theorem flow_setKind {k : EdgeClass} : (x.setKind u v k).flow = x.flow := by
  have hsame : ((x.label? u v).map (·.flow)).getD .unconditional = x.flow u v := rfl
  rw [setKind, flow_set, hsame, update_eq_self, update_eq_self]

theorem flow_foldl_setKind (cs : List Crossing) :
    (cs.foldl (fun x c => x.setKind c.source c.target c.kind) x).flow = x.flow := by
  induction cs generalizing x with
  | nil => rfl
  | cons c cs ih => exact ih.trans flow_setKind

theorem flow_clearKinds : x.clearKinds.flow = x.flow := by
  funext u v
  rw [flow, flow, label?_clearKinds, Option.map_map]
  rfl

theorem flow_eraseAll {ps : List (BlockId × BlockId)} :
    (x.eraseAll ps).1.flow u v = if (u, v) ∈ ps then .unconditional else x.flow u v := by
  induction ps generalizing x with
  | nil => simp [eraseAll]
  | cons p ps ih =>
      obtain ⟨a, c⟩ := p
      change ((x.erase a c).eraseAll ps).1.flow u v = _
      rw [ih, flow_erase]
      by_cases hu : u = a
      · subst hu
        by_cases hv : v = c <;> simp [hv]
      · simp [hu]

theorem flow_reindex_of_holds (h : (x.erase u v).Holds s t) :
    (Flowgraph.reindex x u v s t φ).flow = (x.erase u v).flow := by
  have h : (x.erase u v).contains s t = true := h
  rw [Flowgraph.reindex, if_pos h]

theorem flow_reindex_of_not_holds (h : ¬(x.erase u v).Holds s t) :
    (Flowgraph.reindex x u v s t φ).flow =
      Function.update (x.erase u v).flow s (Function.update ((x.erase u v).flow s) t φ) := by
  have h : ¬(x.erase u v).contains s t = true := h
  rw [Flowgraph.reindex, if_neg h, flow_setFlow]

end EdgeIndex

namespace Flowgraph

variable {g : Flowgraph π} {f : Block π → Block π} {x : Block π} {β : Branch}

def branch? (g : Flowgraph π) (b : BlockId) : Option Branch :=
  (g.block? b).map Block.branch

theorem branch?_update (k : Branch → Branch) (hf : ∀ x, (f x).branch = k x.branch) :
    (g.update b f).branch? = Function.update g.branch? b ((g.branch? b).map k) := by
  funext c
  rw [branch?, block?_update]
  by_cases hc : b = c
  · subst hc
    rw [if_pos rfl, update_self, branch?, Option.map_map, Option.map_map]
    exact congrArg (fun φ => (g.block? b).map φ) (funext hf)
  · rw [if_neg hc, update_of_ne (Ne.symm hc), branch?]

theorem branch?_update_of_eq (hf : ∀ x, (f x).branch = x.branch) :
    (g.update b f).branch? = g.branch? := by
  rw [branch?_update id hf, Option.map_id, id, update_eq_self]

theorem branch?_invalidate : g.invalidate.branch? = g.branch? := by
  funext b
  rw [branch?, block?_invalidate, branch?]
  split
  · rfl
  · rw [Option.map_map]
    exact congrArg (fun φ => (g.block? b).map φ) (funext fun x => Block.branch_eq_of rfl rfl rfl)

theorem flow_invalidate : g.invalidate.edges.flow = g.edges.flow := by
  rw [invalidate]
  split
  · rfl
  · exact EdgeIndex.flow_clearKinds

theorem branch?_append :
    g.append.branch? c = if c = g.blocks.size then some .blank else g.branch? c := by
  have hinv : g.append.branch? = g.grow.branch? := branch?_invalidate
  rw [hinv, branch?, block?_grow]
  split
  · rw [Option.map_some, Block.branch_blank]
  · rfl

theorem branch?_record {r : Results} : (g.record r).branch? = g.branch? := by
  funext b
  rw [branch?, block?_record, Option.map_map]
  exact congrArg (fun φ => (g.block? b).map φ) (funext fun x => Block.branch_eq_of rfl rfl rfl)

theorem flow_record {r : Results} : (g.record r).edges.flow = g.edges.flow := by
  rw [edges_record, EdgeIndex.flow_foldl_setKind]

theorem branch?_removeEdge : (g.removeEdge u v).branch? =
    Function.update g.branch? u ((g.branch? u).map (·.drop v)) := by
  refine branch?_invalidate.trans ((branch?_update_of_eq ?_).trans
    (branch?_update (·.drop v) fun x => x.branch_dropSucc v))
  exact fun _ => Block.branch_eq_of rfl rfl rfl

theorem flow_removeEdge : (g.removeEdge u v).edges.flow =
    Function.update g.edges.flow u (Function.update (g.edges.flow u) v .unconditional) :=
  flow_invalidate.trans EdgeIndex.flow_erase

theorem branch?_link {flow : Flow} : (g.link u v flow).branch? = g.branch? := by
  rw [link]
  split
  · rfl
  · refine branch?_invalidate.trans ((branch?_update_of_eq ?_).trans (branch?_update_of_eq ?_))
    · exact fun _ => Block.branch_eq_of rfl rfl rfl
    · exact fun _ => Block.branch_eq_of rfl rfl rfl

theorem flow_link {flow : Flow} : (g.link u v flow).edges.flow =
    if g.edges.contains u v then g.edges.flow
    else Function.update g.edges.flow u (Function.update (g.edges.flow u) v flow) := by
  rw [link]
  split
  · rfl
  · rw [flow_invalidate]
    exact EdgeIndex.flow_setFlow

theorem branch?_demote (o : Option BlockId) : (g.demote b o t).branch? = g.branch? := by
  obtain ⟨E, h, -⟩ := exists_demote (g := g) (b := b) (t := t) o
  rw [h]
  rfl

def freed (φ : BlockId → Flow) (o : Option BlockId) (t : BlockId) : BlockId → Flow :=
  fun c => if o = some c ∧ c ≠ t then .unconditional else φ c

theorem freed_none (φ : BlockId → Flow) (t : BlockId) : freed φ none t = φ := by
  funext c
  simp [freed]

theorem freed_some_self (φ : BlockId → Flow) (t : BlockId) : freed φ (some t) t = φ := by
  funext c
  rw [freed, if_neg]
  rintro ⟨h, hne⟩
  exact hne (Option.some.inj h).symm

theorem freed_some {φ : BlockId → Flow} {o : BlockId} (ho : o ≠ t) :
    freed φ (some o) t = Function.update φ o .unconditional := by
  funext c
  by_cases hc : c = o
  · subst hc
    rw [freed, if_pos ⟨rfl, ho⟩, update_self]
  · rw [freed, if_neg fun h => hc (Option.some.inj h.1).symm, update_of_ne hc]

theorem flow_demote (o : Option BlockId) : (g.demote b o t).edges.flow =
    Function.update g.edges.flow b (freed (g.edges.flow b) o t) := by
  cases o with
  | none =>
      rw [freed_none, update_eq_self]
      rfl
  | some o =>
      rw [demote]
      by_cases ho : o = t
      · rw [if_neg fun h => h.1 ho, ho, freed_some_self, update_eq_self]
      rw [freed_some ho]
      by_cases hbo : g.edges.contains b o = true
      · rw [if_pos ⟨ho, hbo⟩, EdgeIndex.flow_setFlow]
      · rw [if_neg fun h => hbo h.2, ← EdgeIndex.flow_of_not_holds hbo, update_eq_self,
          update_eq_self]

section Arms

variable (hβ : g.branch? b = some β)

include hβ

theorem branch?_aim : (g.aim b arm t).branch? =
    Function.update g.branch? b (some (β.aim arm t)) := by
  rw [aim, branch?_invalidate, branch?_update (·.aim arm t) fun x => x.branch_aim arm t]
  change Function.update (Flowgraph.link _ b t arm.flow).branch? b
    (((Flowgraph.link _ b t arm.flow).branch? b).map _) = _
  rw [branch?_link, branch?_demote, hβ, Option.map_some]

theorem flow_aim : (g.aim b arm t).edges.flow = Function.update g.edges.flow b
    (Function.update (freed (g.edges.flow b) (β.target? arm) t) t arm.flow) := by
  have harm : (g.block? b).bind (·.target? arm) = β.target? arm := by
    obtain ⟨x, hx, rfl⟩ := Option.map_eq_some_iff.mp hβ
    rw [hx]
    rfl
  rw [aim, harm, flow_invalidate]
  change (EdgeIndex.setFlow _ b t arm.flow).flow = _
  rw [EdgeIndex.flow_setFlow, flow_link, flow_demote]
  split
  · simp
  · simp

theorem branch?_redirectSuccessor : (g.redirectSuccessor b old new).branch? =
    Function.update g.branch? b (some (β.redirect old new)) := by
  refine branch?_invalidate.trans ((branch?_update_of_eq ?_).trans ((branch?_update_of_eq ?_).trans
    ((branch?_update (·.redirect old new) fun x => x.branch_redirectSucc old new).trans ?_)))
  · exact fun x => x.branch_addPred b
  · exact fun _ => Block.branch_eq_of rfl rfl rfl
  · rw [hβ, Option.map_some]

end Arms

theorem flow_redirectSuccessor (hne : old ≠ new) : (g.redirectSuccessor b old new).edges.flow =
    Function.update g.edges.flow b
      (if g.edges.contains b new then
        Function.update (g.edges.flow b) old .unconditional
      else
        Function.update (Function.update (g.edges.flow b) old .unconditional) new
          (g.edges.flow b old)) := by
  have hholds : (g.edges.erase b old).Holds b new ↔ g.edges.Holds b new := by
    rw [EdgeIndex.holds_erase, excluding, and_iff_left fun h => hne h.2.symm]
  refine flow_invalidate.trans ?_
  by_cases hnew : g.edges.contains b new = true
  · rw [if_pos hnew, EdgeIndex.flow_reindex_of_holds (hholds.mpr hnew), EdgeIndex.flow_erase]
  · rw [if_neg hnew, EdgeIndex.flow_reindex_of_not_holds fun h => hnew (hholds.mp h),
      EdgeIndex.flow_erase, update_self, update_idem]
    rfl

theorem branch?_redirectPredecessor {β' : Branch} (hne : old ≠ new)
    (hold : g.branch? old = some β) (hnew : g.branch? new = some β') :
    (g.redirectPredecessor b old new).branch? =
      Function.update (Function.update g.branch? old (some (β.drop b))) new
        (some (β'.adopt b (g.edges.flow old b))) := by
  refine branch?_invalidate.trans ((branch?_update (·.adopt b (g.edges.flow old b)) ?_).trans ?_)
  · exact fun x => x.branch_adopt b _
  rw [branch?_update (·.drop b) fun x => x.branch_dropSucc b, branch?_update_of_eq]
  · rw [hold, update_of_ne hne.symm, hnew, Option.map_some, Option.map_some]
  · exact fun _ => Block.branch_eq_of rfl rfl rfl

theorem flow_redirectPredecessor (hne : old ≠ new) :
    (g.redirectPredecessor b old new).edges.flow =
      Function.update
        (Function.update g.edges.flow old
          (Function.update (g.edges.flow old) b .unconditional))
        new
        (if g.edges.contains new b then g.edges.flow new
        else Function.update (g.edges.flow new) b (g.edges.flow old b)) := by
  have hholds : (g.edges.erase old b).Holds new b ↔ g.edges.Holds new b := by
    rw [EdgeIndex.holds_erase, excluding, and_iff_left fun h => hne h.1.symm]
  refine flow_invalidate.trans ?_
  by_cases hnew : g.edges.contains new b = true
  · have hsame := update_eq_self new (Function.update g.edges.flow old
      (Function.update (g.edges.flow old) b .unconditional))
    rw [update_of_ne hne.symm] at hsame
    rw [if_pos hnew, hsame, EdgeIndex.flow_reindex_of_holds (hholds.mpr hnew),
      EdgeIndex.flow_erase]
  · rw [if_neg hnew, EdgeIndex.flow_reindex_of_not_holds fun h => hnew (hholds.mp h),
      EdgeIndex.flow_erase, update_of_ne hne.symm]
    rfl

theorem branch?_foldl_dropPred (ss : List BlockId) (u : BlockId) :
    (ss.foldl (fun g s => g.update s (·.dropPred u)) g).branch? = g.branch? := by
  induction ss generalizing g with
  | nil => rfl
  | cons s ss ih => exact ih.trans (branch?_update_of_eq fun _ => Block.branch_eq_of rfl rfl rfl)

theorem branch?_foldl_dropSucc (ps : List BlockId) (v : BlockId) :
    (ps.foldl (fun g p => g.update p (·.dropSucc v)) g).branch? c =
      if c ∈ ps then (g.branch? c).map (·.drop v) else g.branch? c := by
  induction ps generalizing g with
  | nil => simp
  | cons p ps ih =>
      have htwice : ∀ β : Branch, (β.drop v).drop v = β.drop v := by
        intro β
        simp only [Branch.drop]
        congr 1
        funext arm
        split <;> simp_all
      rw [List.foldl_cons, ih, branch?_update (·.drop v) fun x => x.branch_dropSucc v]
      by_cases hc : c = p
      · subst hc
        cases g.branch? c <;> simp [htwice]
      · simp [hc]

theorem branch?_remove : (g.remove b x).branch? c =
    if c = b then none
    else if c ∈ x.preds.toList then (g.branch? c).map (·.drop b) else g.branch? c := by
  have hvacate : (g.vacate b).branch? c = if c = b then none else g.branch? c := by
    rw [branch?, block?_vacate]
    split <;> rfl
  have hinv : (g.remove b x).branch? = (g.detach b x).branch? := branch?_invalidate
  rw [hinv, detach, branch?_foldl_dropSucc, branch?_foldl_dropPred, hvacate]
  by_cases hc : c = b <;> simp [hc]

theorem flow_remove (hc : c ≠ b) : (g.remove b x).edges.flow c =
    if c ∈ x.preds.toList then Function.update (g.edges.flow c) b .unconditional
    else g.edges.flow c := by
  have hinv : (g.remove b x).edges.flow =
      (g.edges.eraseBlock b x.succs.toList x.preds.toList).1.flow := flow_invalidate
  have hmem : ∀ d, (c, d) ∈ x.succs.toList.map (b, ·) ++ x.preds.toList.map (·, b) ↔
      c ∈ x.preds.toList ∧ d = b := by
    intro d
    simp [Ne.symm hc, eq_comm]
  funext d
  rw [hinv, EdgeIndex.eraseBlock, EdgeIndex.flow_eraseAll, if_congr (hmem d) rfl rfl]
  by_cases hcp : c ∈ x.preds.toList
  · by_cases hd : d = b
    · rw [if_pos ⟨hcp, hd⟩, if_pos hcp, hd, update_self]
    · rw [if_neg fun h => hd h.2, if_pos hcp, update_of_ne hd]
  · rw [if_neg fun h => hcp h.1, if_neg hcp]

end Flowgraph

end ControlFlow

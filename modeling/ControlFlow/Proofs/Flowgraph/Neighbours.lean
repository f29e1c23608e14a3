import ControlFlow.Proofs.EdgeIndex
import ControlFlow.Proofs.Flowgraph.Change

namespace ControlFlow

variable {π : Type} {old new b c s t u v : BlockId}

section Redirect

variable {bs : List BlockId}

theorem mem_replace (hbs : bs.Nodup) (hold : old ∈ bs) :
    c ∈ bs.replace old new ↔ (c ∈ bs ∧ c ≠ old) ∨ c = new := by
  induction bs with
  | nil => cases hold
  | cons a bs ih =>
      rw [List.nodup_cons] at hbs
      by_cases ha : a = old
      · subst ha
        rw [List.replace_cons_self, List.mem_cons, List.mem_cons, or_comm]
        refine or_congr ⟨fun hc => ⟨.inr hc, fun e => hbs.1 (e ▸ hc)⟩, ?_⟩ Iff.rfl
        rintro ⟨rfl | hc, hne⟩
        · exact absurd rfl hne
        · exact hc
      · have hold : old ∈ bs := (List.mem_cons.mp hold).resolve_left (Ne.symm ha)
        have hbeq : (old == a) = false := beq_false_of_ne (Ne.symm ha)
        rw [List.replace_cons, hbeq, List.mem_cons, ih hbs.2 hold, List.mem_cons]
        constructor
        · rintro (rfl | ⟨hc, hne⟩ | rfl)
          · exact .inl ⟨.inl rfl, ha⟩
          · exact .inl ⟨.inr hc, hne⟩
          · exact .inr rfl
        · rintro (⟨rfl | hc, hne⟩ | rfl)
          · exact .inl rfl
          · exact .inr (.inl ⟨hc, hne⟩)
          · exact .inr (.inr rfl)

theorem nodup_replace (hbs : bs.Nodup) (hnew : new ∉ bs) : (bs.replace old new).Nodup := by
  induction bs with
  | nil => exact hbs
  | cons a bs ih =>
      rw [List.nodup_cons] at hbs
      rw [List.mem_cons, not_or] at hnew
      rw [List.replace_cons]
      split
      · exact List.nodup_cons.mpr ⟨hnew.2, hbs.2⟩
      · refine List.nodup_cons.mpr ⟨fun ha => ?_, ih hbs.2 hnew.2⟩
        by_cases hold : old ∈ bs
        · rcases (mem_replace hbs.2 hold).mp ha with ⟨ha, -⟩ | rfl
          · exact hbs.1 ha
          · exact hnew.1 rfl
        · rw [List.replace_of_not_mem hold] at ha
          exact hbs.1 ha

variable {xs : Array BlockId}

theorem toList_erase (xs : Array BlockId) (b : BlockId) :
    (xs.erase b).toList = xs.toList.erase b := by
  rcases xs with ⟨xs⟩
  simp only [List.erase_toArray]

theorem nodup_push (hxs : xs.toList.Nodup) (hb : b ∉ xs.toList) : (xs.push b).toList.Nodup := by
  rw [Array.toList_push, List.nodup_append]
  refine ⟨hxs, List.pairwise_singleton _ b, fun a ha c hc => ?_⟩
  rw [List.mem_singleton.mp hc]
  rintro rfl
  exact hb ha

theorem nodup_redirect (hxs : xs.toList.Nodup) : (redirect old new xs).toList.Nodup := by
  rw [toList_redirect]
  split
  · exact hxs.erase old
  · rename_i hnew
    exact nodup_replace hxs hnew

theorem mem_redirect (hxs : xs.toList.Nodup) (hold : old ∈ xs.toList) (hne : old ≠ new) :
    c ∈ (redirect old new xs).toList ↔ (c ∈ xs.toList ∧ c ≠ old) ∨ c = new := by
  rw [toList_redirect]
  split
  · rename_i hnew
    rw [hxs.mem_erase_iff, and_comm]
    refine ⟨.inl, ?_⟩
    rintro (h | rfl)
    · exact h
    · exact ⟨hnew, hne.symm⟩
  · exact mem_replace hxs hold

end Redirect

namespace Flowgraph

variable {α : Type} {g : Flowgraph π} {f : Block π → Block π} {φ : Block π → Array α}
  {R : List α → List α → Prop}

def listOf (φ : Block π → Array α) (g : Flowgraph π) (b : BlockId) : List α :=
  ((g.block? b).map fun x => (φ x).toList).getD []

theorem listOf_update_of_ne (hbc : b ≠ c) : (g.update b f).listOf φ c = g.listOf φ c := by
  rw [listOf, listOf, block?_update, if_neg hbc]

theorem rel_listOf_update (hR : ∀ xs, R xs xs)
    (hf : ∀ x, g.block? b = some x → R (φ x).toList (φ (f x)).toList) (c : BlockId) :
    R (g.listOf φ c) ((g.update b f).listOf φ c) := by
  rw [listOf, listOf, block?_update]
  split
  · rename_i hbc
    subst hbc
    cases hx : g.block? b with
    | none => exact hR _
    | some x => exact hf x hx
  · exact hR _

theorem listOf_update_of_eq (hf : ∀ x, φ (f x) = φ x) : (g.update b f).listOf φ = g.listOf φ :=
  funext fun c => (rel_listOf_update (fun _ => rfl) (fun x _ => by rw [hf x]) c).symm

theorem listOf_invalidate (hφ : ∀ x, φ { x with marks := none } = φ x) :
    g.invalidate.listOf φ = g.listOf φ := by
  funext c
  rw [listOf, listOf, block?_invalidate]
  split
  · rfl
  · rw [Option.map_map]
    exact congrArg (fun ψ => ((g.block? c).map ψ).getD []) (funext fun x => congrArg _ (hφ x))

theorem listOf_grow (hφ : φ .blank = #[]) : g.grow.listOf φ = g.listOf φ := by
  funext c
  rw [listOf, listOf, block?_grow]
  split
  · rename_i hc
    rw [hc, Option.eq_none_iff_forall_ne_some.mpr fun x hx => not_live_size ⟨x, hx⟩,
      Option.map_some, hφ]
    rfl
  · rfl

end Flowgraph

namespace Block

structure Outward (E : BlockId → Prop) (x : Block π) : Prop where
  nodup : x.succs.toList.Nodup
  mem_iff : ∀ t, t ∈ x.succs.toList ↔ E t
  arm : ∀ arm t, x.target? arm = some t → E t

structure Inward (E : BlockId → Prop) (x : Block π) : Prop where
  nodup : x.preds.toList.Nodup
  mem_iff : ∀ s, s ∈ x.preds.toList ↔ E s

variable {E E' : BlockId → Prop} {x y : Block π}

theorem Outward.congr (h : x.Outward E) (hE : ∀ t, E t ↔ E' t) : x.Outward E' :=
  ⟨h.nodup, fun t => (h.mem_iff t).trans (hE t), fun arm t ht => (hE t).mp (h.arm arm t ht)⟩

theorem Inward.congr (h : x.Inward E) (hE : ∀ s, E s ↔ E' s) : x.Inward E' :=
  ⟨h.nodup, fun s => (h.mem_iff s).trans (hE s)⟩

theorem Outward.of_eq (h : x.Outward E) (hsuccs : y.succs = x.succs)
    (harms : ∀ arm, y.target? arm = x.target? arm) : y.Outward E :=
  ⟨hsuccs ▸ h.nodup, hsuccs ▸ h.mem_iff, fun arm t ht => h.arm arm t (harms arm ▸ ht)⟩

theorem Inward.of_eq (h : x.Inward E) (hpreds : y.preds = x.preds) : y.Inward E :=
  ⟨hpreds ▸ h.nodup, hpreds ▸ h.mem_iff⟩

theorem Outward.addSucc (h : x.Outward E) (t : BlockId) :
    (x.addSucc t).Outward fun c => E c ∨ c = t := by
  rw [Block.addSucc]
  split
  · rename_i ht
    refine h.congr fun c => ⟨.inl, ?_⟩
    rintro (hc | rfl)
    · exact hc
    · exact (h.mem_iff c).mp (Array.mem_toList_iff.mpr (by simpa using ht))
  · rename_i ht
    have ht : t ∉ x.succs.toList := by simpa using ht
    refine ⟨?_, fun c => ?_, fun arm c hc => .inl (h.arm arm c (by cases arm <;> exact hc))⟩
    · exact nodup_push h.nodup ht
    · rw [Array.toList_push, List.mem_append, List.mem_singleton, h.mem_iff]

theorem Inward.addPred (h : x.Inward E) (s : BlockId) :
    (x.addPred s).Inward fun c => E c ∨ c = s := by
  rw [Block.addPred]
  split
  · rename_i hs
    refine h.congr fun c => ⟨.inl, ?_⟩
    rintro (hc | rfl)
    · exact hc
    · exact (h.mem_iff c).mp (Array.mem_toList_iff.mpr (by simpa using hs))
  · rename_i hs
    have hs : s ∉ x.preds.toList := by simpa using hs
    refine ⟨?_, fun c => ?_⟩
    · exact nodup_push h.nodup hs
    · rw [Array.toList_push, List.mem_append, List.mem_singleton, h.mem_iff]

theorem Outward.dropSucc (h : x.Outward E) (t : BlockId) :
    (x.dropSucc t).Outward fun c => E c ∧ c ≠ t := by
  refine ⟨?_, fun c => ?_, fun arm c hc => ?_⟩
  · rw [Block.dropSucc, toList_erase]
    exact h.nodup.erase t
  · rw [Block.dropSucc, toList_erase, h.nodup.mem_erase_iff, h.mem_iff, and_comm]
  · have hne : c ≠ t ∧ x.target? arm = some c := by
      cases arm with
      | onTrue =>
          simp only [Block.dropSucc, target?] at hc ⊢
          split at hc <;> simp_all
      | onFalse =>
          simp only [Block.dropSucc, target?] at hc ⊢
          split at hc <;> simp_all
    exact ⟨h.arm arm c hne.2, hne.1⟩

theorem Inward.dropPred (h : x.Inward E) (s : BlockId) :
    (x.dropPred s).Inward fun c => E c ∧ c ≠ s := by
  refine ⟨?_, fun c => ?_⟩
  · rw [Block.dropPred, toList_erase]
    exact h.nodup.erase s
  · rw [Block.dropPred, toList_erase, h.nodup.mem_erase_iff, h.mem_iff, and_comm]

theorem Outward.redirectSucc (h : x.Outward E) (hold : E old) (hne : old ≠ new) :
    (x.redirectSucc old new).Outward fun c => (E c ∧ c ≠ old) ∨ c = new := by
  refine ⟨nodup_redirect h.nodup, fun c => ?_, fun arm c hc => ?_⟩
  · simp only [Block.redirectSucc]
    rw [mem_redirect h.nodup ((h.mem_iff old).mpr hold) hne, h.mem_iff]
  · have hc : c = new ∨ (c ≠ old ∧ x.target? arm = some c) := by
      cases arm with
      | onTrue =>
          simp only [Block.redirectSucc, target?] at hc ⊢
          split at hc <;> simp_all
      | onFalse =>
          simp only [Block.redirectSucc, target?] at hc ⊢
          split at hc <;> simp_all
    rcases hc with rfl | ⟨hne, hc⟩
    · exact .inr rfl
    · exact .inl ⟨h.arm arm c hc, hne⟩

theorem Inward.redirectPred (h : x.Inward E) (hold : E old) (hne : old ≠ new) :
    (x.redirectPred old new).Inward fun c => (E c ∧ c ≠ old) ∨ c = new := by
  refine ⟨nodup_redirect h.nodup, fun c => ?_⟩
  simp only [Block.redirectPred]
  rw [mem_redirect h.nodup ((h.mem_iff old).mpr hold) hne, h.mem_iff]

theorem Outward.aim (h : x.Outward E) (arm : Arm) (ht : E t) : (x.aim arm t).Outward E := by
  refine ⟨by cases arm <;> exact h.nodup, by cases arm <;> exact h.mem_iff, fun arm' c hc => ?_⟩
  have hc : c = t ∨ x.target? arm' = some c := by
    cases arm <;> cases arm' <;> simp_all [Block.aim, target?]
  rcases hc with rfl | hc
  · exact ht
  · exact h.arm arm' c hc

end Block

namespace Flowgraph

variable {S S' P P' : BlockId → BlockId → Prop} {g : Flowgraph π} {f : Block π → Block π}

def Out (S : BlockId → BlockId → Prop) (g : Flowgraph π) : Prop :=
  ∀ b x, g.block? b = some x → x.Outward (S b)

def Into (P : BlockId → BlockId → Prop) (g : Flowgraph π) : Prop :=
  ∀ b x, g.block? b = some x → x.Inward (P · b)

theorem Out.congr (h : g.Out S) (hS : ∀ u v, g.Live u → (S u v ↔ S' u v)) : g.Out S' :=
  fun b x hx => (h b x hx).congr fun t => hS b t ⟨x, hx⟩

theorem Into.congr (h : g.Into P) (hP : ∀ u v, g.Live v → (P u v ↔ P' u v)) : g.Into P' :=
  fun b x hx => (h b x hx).congr fun s => hP s b ⟨x, hx⟩

theorem Out.update (h : g.Out S) (hb : ∀ x, x.Outward (S b) → (f x).Outward (S' b))
    (hS : ∀ u v, u ≠ b → (S u v ↔ S' u v)) : (g.update b f).Out S' := by
  intro c x hx
  rw [block?_update] at hx
  split at hx
  · rename_i hbc
    subst hbc
    obtain ⟨y, hy, rfl⟩ := Option.map_eq_some_iff.mp hx
    exact hb y (h b y hy)
  · rename_i hbc
    exact (h c x hx).congr fun t => hS c t (Ne.symm hbc)

theorem Into.update (h : g.Into P) (hb : ∀ x, x.Inward (P · b) → (f x).Inward (P' · b))
    (hP : ∀ u v, v ≠ b → (P u v ↔ P' u v)) : (g.update b f).Into P' := by
  intro c x hx
  rw [block?_update] at hx
  split at hx
  · rename_i hbc
    subst hbc
    obtain ⟨y, hy, rfl⟩ := Option.map_eq_some_iff.mp hx
    exact hb y (h b y hy)
  · rename_i hbc
    exact (h c x hx).congr fun s => hP s c (Ne.symm hbc)

theorem Out.update_of_eq (h : g.Out S) (hsuccs : ∀ x, (f x).succs = x.succs)
    (harms : ∀ x arm, (f x).target? arm = x.target? arm) : (g.update b f).Out S :=
  h.update (fun x hx => hx.of_eq (hsuccs x) (harms x)) fun _ _ _ => Iff.rfl

theorem Into.update_of_eq (h : g.Into P) (hpreds : ∀ x, (f x).preds = x.preds) :
    (g.update b f).Into P :=
  h.update (fun x hx => hx.of_eq (hpreds x)) fun _ _ _ => Iff.rfl

theorem Out.addSucc (h : g.Out S) (u v : BlockId) :
    (g.update u (·.addSucc v)).Out (including S u v) := by
  refine h.update (fun x hx => (hx.addSucc v).congr fun t => ?_) fun a c ha => ?_
  · simp [including]
  · simp [including, ha]

theorem Out.pushSucc (h : g.Out S) (huv : ¬S u v) :
    (g.update u fun x => { x with succs := x.succs.push v }).Out (including S u v) := by
  refine h.update (fun x hx => ?_) fun a c ha => by simp [including, ha]
  have hv : ¬x.succs.contains v = true := by
    rw [Array.contains_iff_mem, ← Array.mem_toList_iff, hx.mem_iff]
    exact huv
  have hadd := hx.addSucc v
  rw [Block.addSucc, if_neg hv] at hadd
  exact hadd.congr fun t => by simp [including]

theorem Out.dropSucc (h : g.Out S) (u v : BlockId) :
    (g.update u (·.dropSucc v)).Out (excluding S u v) := by
  refine h.update (fun x hx => (hx.dropSucc v).congr fun t => ?_) fun a c ha => ?_
  · simp [excluding]
  · simp [excluding, ha]

theorem Out.redirectSucc (h : g.Out S) (hold : S b old) (hne : old ≠ new) :
    (g.update b (·.redirectSucc old new)).Out (including (excluding S b old) b new) := by
  refine h.update (fun x hx => (hx.redirectSucc hold hne).congr fun t => ?_) fun a c ha => ?_
  · simp [including, excluding]
  · simp [including, excluding, ha]

theorem Out.aim (h : g.Out S) (arm : Arm) (hS : S u v) : (g.update u (·.aim arm v)).Out S :=
  h.update (fun _ hx => hx.aim arm hS) fun _ _ _ => Iff.rfl

theorem Into.addPred (h : g.Into P) (u v : BlockId) :
    (g.update v (·.addPred u)).Into (including P u v) := by
  refine h.update (fun x hx => (hx.addPred u).congr fun s => ?_) fun a c hc => ?_
  · simp [including]
  · simp [including, hc]

theorem Into.pushPred (h : g.Into P) (huv : ¬P u v) :
    (g.update v fun x => { x with preds := x.preds.push u }).Into (including P u v) := by
  refine h.update (fun x hx => ?_) fun a c hc => by simp [including, hc]
  have hu : ¬x.preds.contains u = true := by
    rw [Array.contains_iff_mem, ← Array.mem_toList_iff, hx.mem_iff]
    exact huv
  have hadd := hx.addPred u
  rw [Block.addPred, if_neg hu] at hadd
  exact hadd.congr fun s => by simp [including]

theorem Into.dropPred (h : g.Into P) (u v : BlockId) :
    (g.update v (·.dropPred u)).Into (excluding P u v) := by
  refine h.update (fun x hx => (hx.dropPred u).congr fun s => ?_) fun a c hc => ?_
  · simp [excluding]
  · simp [excluding, hc]

theorem Into.redirectPred (h : g.Into P) (hold : P old b) (hne : old ≠ new) :
    (g.update b (·.redirectPred old new)).Into (including (excluding P old b) new b) := by
  refine h.update (fun x hx => (hx.redirectPred hold hne).congr fun s => ?_) fun a c hc => ?_
  · simp [including, excluding]
  · simp [including, excluding, hc]

theorem Out.foldl_dropSucc (h : g.Out S) (ps : List BlockId) (v : BlockId) :
    (ps.foldl (fun g p => g.update p (·.dropSucc v)) g).Out
      fun a c => S a c ∧ ¬(a ∈ ps ∧ c = v) := by
  induction ps generalizing g S with
  | nil => exact h.congr fun _ _ _ => by simp
  | cons p ps ih =>
      refine (ih (h.dropSucc p v)).congr fun a c _ => ?_
      rw [excluding, List.mem_cons, or_and_right, not_or, and_assoc]

theorem Into.foldl_dropPred (h : g.Into P) (ss : List BlockId) (u : BlockId) :
    (ss.foldl (fun g s => g.update s (·.dropPred u)) g).Into
      fun a c => P a c ∧ ¬(a = u ∧ c ∈ ss) := by
  induction ss generalizing g P with
  | nil => exact h.congr fun _ _ _ => by simp
  | cons s ss ih =>
      refine (ih (h.dropPred u s)).congr fun a c _ => ?_
      rw [excluding, List.mem_cons, and_or_left, not_or, and_assoc]

theorem Out.adopt (h : g.Out S) (u v : BlockId) (flow : Flow) :
    (g.update u (adopt v flow)).Out (including S u v) := by
  refine h.update (fun x hx => ?_) fun a c ha => by simp [including, ha]
  have hx : (x.addSucc v).Outward (including S u v u) :=
    (hx.addSucc v).congr fun t => by simp [including]
  have hv : including S u v u v := .inr ⟨rfl, rfl⟩
  cases flow with
  | unconditional => exact hx
  | onTrue => exact hx.aim .onTrue hv
  | onFalse => exact hx.aim .onFalse hv

theorem Out.invalidate (h : g.Out S) : g.invalidate.Out S := by
  intro b x hx
  rw [block?_invalidate] at hx
  split at hx
  · exact h b x hx
  · obtain ⟨y, hy, rfl⟩ := Option.map_eq_some_iff.mp hx
    exact (h b y hy).of_eq rfl fun arm => by cases arm <;> rfl

theorem Into.invalidate (h : g.Into P) : g.invalidate.Into P := by
  intro b x hx
  rw [block?_invalidate] at hx
  split at hx
  · exact h b x hx
  · obtain ⟨y, hy, rfl⟩ := Option.map_eq_some_iff.mp hx
    exact (h b y hy).of_eq rfl

end Flowgraph

end ControlFlow

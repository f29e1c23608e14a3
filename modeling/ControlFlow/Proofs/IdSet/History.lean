import ControlFlow.Proofs.IdSet.Elements
import ControlFlow.Proofs.Tables
import Mathlib.Algebra.GroupWithZero.Nat
import Mathlib.Data.Finset.Card

namespace ControlFlow

namespace Word

variable {w : UInt64} {i j : Nat}

theorem shiftLeft_eq_single (hi : i < 64) : (1 : UInt64) <<< UInt64.ofNat i = single i := by
  have hlt : i < 2 ^ 64 := Nat.lt_trans hi (by decide)
  refine UInt64.toNat_inj.mp ?_
  rw [UInt64.toNat_shiftLeft, UInt64.toNat_ofNat_of_lt' hlt, Nat.mod_eq_of_lt hi]
  simp [single, Nat.shiftLeft_eq]

theorem bit_and_single (hi : i < 64) : bit (w &&& single i) j = (bit w j && decide (i = j)) := by
  simp [bit, single, BitVec.getLsbD_twoPow, hi]

theorem and_single_eq_zero (hi : i < 64) : (w &&& single i == 0) = !bit w i := by
  cases hbit : bit w i with
  | true =>
      refine beq_eq_false_iff_ne.mpr fun hzero => ?_
      have hone : bit (w &&& single i) i = true := by rw [bit_and_single hi, hbit]; simp
      rw [hzero, bit_zero] at hone
      cases hone
  | false =>
      refine beq_iff_eq.mpr (eq_of_bit fun j _ => ?_)
      rw [bit_and_single hi, bit_zero]
      by_cases hij : i = j
      · rw [← hij, hbit, Bool.false_and]
      · rw [decide_eq_false hij, Bool.and_false]

def ones (w : UInt64) : Nat :=
  w.toBitVec.cpop.toNat

theorem cpopNatRec_eq (x : BitVec 64) (n acc : Nat) :
    x.cpopNatRec n acc = acc + ((List.range n).filter x.getLsbD).length := by
  induction n generalizing acc with
  | zero => rfl
  | succ n ih =>
      rw [BitVec.cpopNatRec_succ, ih, List.range_succ, List.filter_append, List.length_append]
      cases h : x.getLsbD n <;> simp [h]
      omega

theorem ones_eq (w : UInt64) : ones w = (bits w).length := by
  rw [ones, BitVec.toNat_cpop, cpopNatRec_eq, Nat.zero_add]
  rfl

end Word

namespace IdSet

variable {s : IdSet} {b c n : Nat} {S : Finset BlockId}

inductive Change where
  | insert (b : BlockId)
  | erase (b : BlockId)
  | clear

def settle (s : IdSet) : Except Fault (Bool × IdSet) → Except Fault Bool × IdSet
  | .ok (q, s') => (.ok q, s')
  | .error e => (.error e, s)

namespace Change

def apply (s : IdSet) : Change → IdSet
  | insert b => (s.settle (s.insert b)).2
  | erase b => (s.settle (s.erase b)).2
  | clear => s.clear

def act (n : Nat) (S : Finset BlockId) : Change → Finset BlockId
  | insert b => if b < n then Insert.insert b S else S
  | erase b => S.erase b
  | clear => ∅

end Change

def after (n : Nat) (cs : List Change) : IdSet :=
  cs.foldl Change.apply (empty n)

def contents (n : Nat) (cs : List Change) : Finset BlockId :=
  cs.foldl (Change.act n) ∅

structure Represents (n : Nat) (s : IdSet) (S : Finset BlockId) : Prop where
  capacity : s.capacity = n
  has_iff : ∀ b, s.has b = true ↔ b ∈ S
  lt : ∀ b ∈ S, b < n

namespace Represents

theorem empty (n : Nat) : Represents n (empty n) ∅ where
  capacity := rfl
  has_iff b := by simp [has_empty]
  lt b hb := absurd hb (Finset.notMem_empty b)

variable (h : Represents n s S)

include h

theorem has_eq (b : BlockId) : s.has b = decide (b ∈ S) := by
  rw [Bool.eq_iff_iff, h.has_iff, decide_eq_true_eq]

theorem contains (hb : b < n) : s.contains b = .ok (decide (b ∈ S)) := by
  rw [IdSet.contains, guard_of_lt (h.capacity ▸ hb), h.has_eq]
  rfl

theorem insert (hb : b < n) :
    s.insert b = .ok (decide (b ∉ S), s.put b) ∧ Represents n (s.put b) (Insert.insert b S) := by
  have hcap : b < s.capacity := h.capacity ▸ hb
  refine ⟨?_, h.capacity, fun c => ?_, ?_⟩
  · rw [insert_of_lt hcap, h.has_eq, decide_not]
  · rw [has_put hcap, Bool.or_eq_true, h.has_iff, decide_eq_true_eq, Finset.mem_insert, or_comm,
      eq_comm]
  · intro c hc
    rcases Finset.mem_insert.mp hc with rfl | hc
    · exact hb
    · exact h.lt c hc

theorem erase (hb : b < n) :
    s.erase b = .ok (decide (b ∈ S), s.drop b) ∧ Represents n (s.drop b) (S.erase b) := by
  have hcap : b < s.capacity := h.capacity ▸ hb
  refine ⟨?_, h.capacity, fun c => ?_, fun c hc => h.lt c (Finset.mem_of_mem_erase hc)⟩
  · rw [IdSet.erase, guard_of_lt hcap, h.has_eq]
    rfl
  · rw [has_drop hcap, Bool.and_eq_true, h.has_iff, Bool.not_eq_true', decide_eq_false_iff_not,
      Finset.mem_erase, and_comm, ne_comm]

theorem refused (hb : n ≤ b) :
    s.contains b = .error (.outsideSet b n) ∧ s.insert b = .error (.outsideSet b n) ∧
      s.erase b = .error (.outsideSet b n) := by
  have hguard : s.guard b = .error (.outsideSet b n) := by
    rw [guard_of_ge (h.capacity.le.trans hb), h.capacity]
  rw [IdSet.contains, IdSet.insert, IdSet.erase, hguard]
  exact ⟨rfl, rfl, rfl⟩

theorem act (c : Change) : Represents n (c.apply s) (c.act n S) := by
  cases c with
  | insert b =>
      rw [Change.apply, Change.act]
      split
      · rename_i hb
        rw [(h.insert hb).1]
        exact (h.insert hb).2
      · rename_i hb
        rw [(h.refused (Nat.not_lt.mp hb)).2.1]
        exact h
  | erase b =>
      rw [Change.apply, Change.act]
      by_cases hb : b < n
      · rw [(h.erase hb).1]
        exact (h.erase hb).2
      · have hmem : b ∉ S := fun hmem => hb (h.lt b hmem)
        rw [(h.refused (Nat.not_lt.mp hb)).2.2, Finset.erase_eq_of_notMem hmem]
        exact h
  | clear =>
      rw [Change.apply, Change.act, IdSet.clear, h.capacity]
      exact .empty n

theorem mem_toList : b ∈ s.toList ↔ b ∈ S :=
  IdSet.mem_toList.trans (h.has_iff b)

theorem size : s.size = S.card := by
  have hlist : s.toList.toFinset = S := Finset.ext fun b => List.mem_toFinset.trans h.mem_toList
  rw [← length_toList, ← hlist,
    List.toFinset_card_of_nodup ((toList_pairwise s).imp Nat.ne_of_lt)]

theorem isEmpty_iff : s.isEmpty = true ↔ S = ∅ := by
  rw [← Finset.card_eq_zero, ← h.size, IdSet.size, List.length_eq_zero_iff, List.flatMap_eq_nil_iff,
    isEmpty, Array.all_eq_true_iff_forall_mem]
  refine ⟨fun hall w hw => ?_, fun hall w hw => ?_⟩
  · rw [beq_iff_eq.mp (hall w (Array.mem_toList_iff.mp hw)), Word.bits_zero]
  · by_contra hne
    have hnil := hall w (Array.mem_toList_iff.mpr hw)
    rw [Word.bits_of_ne_zero fun h => hne (beq_iff_eq.mpr h)] at hnil
    cases hnil

theorem eq_iff {s' : IdSet} {S' : Finset BlockId} (h' : Represents n s' S') : s = s' ↔ S = S' := by
  constructor
  · rintro rfl
    exact Finset.ext fun b => (h.has_iff b).symm.trans (h'.has_iff b)
  · rintro rfl
    exact eq_of_has (h.capacity.trans h'.capacity.symm)
      fun b => (h.has_eq b).trans (h'.has_eq b).symm

end Represents

section Wordwise

theorem exists_word (hb : b < s.capacity) : ∃ w, s.words[b / 64]? = some w :=
  ⟨_, Array.getElem?_eq_getElem (word_lt hb)⟩

def setWord (s : IdSet) (k : Nat) (w : UInt64) : IdSet :=
  { s with
    words := s.words.setIfInBounds k w
    size_words := by rw [Array.size_setIfInBounds, s.size_words] }

theorem modify_of_some {T : Array UInt64} {k : Nat} {w : UInt64} (f : UInt64 → UInt64)
    (hw : T[k]? = some w) : T.modify k f = T.setIfInBounds k (f w) := by
  refine Array.ext_getElem? fun i => ?_
  rw [Array.getElem?_modify, Array.getElem?_setIfInBounds]
  split
  · rename_i hki
    obtain ⟨hk, -⟩ := Array.getElem?_eq_some_iff.mp hw
    rw [← hki, hw, if_pos hk, Option.map_some]
  · rfl

abbrev Work := ExceptT Fault (StateM IdSet)

def Work.exec {α : Type} (x : Work α) (s : IdSet) : Except Fault α × IdSet :=
  x.run.run s

theorem Work.exec_bind_of_ok {α β : Type} {x : Work α} {f : α → Work β} {a : α} {s' : IdSet}
    (h : x.exec s = (.ok a, s')) : Work.exec (x >>= f) s = (f a).exec s' := by
  change StateT.run (ExceptT.run (x >>= f)) s = _
  rw [ExceptT.run_bind, StateT.run_bind, show StateT.run (ExceptT.run x) s = (.ok a, s') from h]
  rfl

theorem Work.exec_bind_of_error {α β : Type} {x : Work α} {f : α → Work β} {e : Fault} {s' : IdSet}
    (h : x.exec s = (.error e, s')) : Work.exec (x >>= f) s = (.error e, s') := by
  change StateT.run (ExceptT.run (x >>= f)) s = _
  rw [ExceptT.run_bind, StateT.run_bind, show StateT.run (ExceptT.run x) s = (.error e, s') from h]
  rfl

namespace Wordwise

def fetch (b : BlockId) : Work (Nat × UInt64 × UInt64) := do
  let s ← get
  s.guard b
  let w ← lookUp s.words (b / 64)
  return (b / 64, 1 <<< UInt64.ofNat (b % 64), w)

def contains (b : BlockId) : Work Bool := do
  let (_, mask, w) ← fetch b
  return w &&& mask != 0

def insert (b : BlockId) : Work Bool := do
  let (k, mask, w) ← fetch b
  modify (·.setWord k (w ||| mask))
  return w &&& mask == 0

def erase (b : BlockId) : Work Bool := do
  let (k, mask, w) ← fetch b
  modify (·.setWord k (w &&& ~~~mask))
  return w &&& mask != 0

theorem exec_fetch {w : UInt64} (hb : b < s.capacity) (hw : s.words[b / 64]? = some w) :
    (fetch b).exec s = (.ok (b / 64, Word.single (b % 64), w), s) := by
  have hguard : Work.exec (liftM (s.guard b)) s = (.ok (), s) := by
    rw [guard_of_lt hb]
    rfl
  have hlook : Work.exec (liftM (lookUp s.words (b / 64))) s = (.ok w, s) := by
    rw [lookUp_of_some hw]
    rfl
  rw [← Word.shiftLeft_eq_single (Nat.mod_lt _ (by decide))]
  exact (Work.exec_bind_of_ok rfl).trans
    ((Work.exec_bind_of_ok hguard).trans (Work.exec_bind_of_ok hlook))

theorem exec_fetch_refused (hb : s.capacity ≤ b) :
    (fetch b).exec s = (.error (.outsideSet b s.capacity), s) := by
  have hguard : Work.exec (liftM (s.guard b)) s = (.error (.outsideSet b s.capacity), s) := by
    rw [guard_of_ge hb]
    rfl
  exact (Work.exec_bind_of_ok rfl).trans (Work.exec_bind_of_error hguard)

end Wordwise

theorem wordwise_eq (s : IdSet) (b : BlockId) :
    (Wordwise.contains b).exec s = (s.contains b, s) ∧
      (Wordwise.insert b).exec s = s.settle (s.insert b) ∧
      (Wordwise.erase b).exec s = s.settle (s.erase b) := by
  by_cases hb : b < s.capacity
  · obtain ⟨w, hw⟩ := exists_word hb
    have hfetch := Wordwise.exec_fetch hb hw
    have habsent : (!s.has b) = (w &&& Word.single (b % 64) == 0) := by
      rw [Word.and_single_eq_zero (Nat.mod_lt _ (by decide)), has_eq_bit hw]
    have hpresent : s.has b = (w &&& Word.single (b % 64) != 0) := by
      rw [bne, ← habsent, Bool.not_not]
    have hput : s.put b = s.setWord (b / 64) (w ||| Word.single (b % 64)) :=
      eq_of_words rfl (modify_of_some (· ||| Word.single (b % 64)) hw)
    have hdrop : s.drop b = s.setWord (b / 64) (w &&& ~~~Word.single (b % 64)) :=
      eq_of_words rfl (modify_of_some (· &&& ~~~Word.single (b % 64)) hw)
    rw [IdSet.contains, IdSet.insert, IdSet.erase, guard_of_lt hb, habsent, hpresent, hput, hdrop]
    exact ⟨Work.exec_bind_of_ok hfetch, Work.exec_bind_of_ok hfetch, Work.exec_bind_of_ok hfetch⟩
  · have hfetch := Wordwise.exec_fetch_refused (Nat.not_lt.mp hb)
    rw [IdSet.contains, IdSet.insert, IdSet.erase, guard_of_ge (Nat.not_lt.mp hb)]
    exact ⟨Work.exec_bind_of_error hfetch, Work.exec_bind_of_error hfetch,
      Work.exec_bind_of_error hfetch⟩

end Wordwise

theorem size_eq_sum (s : IdSet) : s.size = (s.words.toList.map Word.ones).sum := by
  rw [size, List.length_flatMap, funext Word.ones_eq]

structure Answers (n : Nat) (s : IdSet) (S : Finset BlockId) : Prop where
  below : ∀ b ∈ S, b < n
  contains : ∀ b < n, s.contains b = .ok (decide (b ∈ S))
  insert : ∀ b < n, s.insert b = .ok (decide (b ∉ S), (Change.insert b).apply s)
  erase : ∀ b < n, s.erase b = .ok (decide (b ∈ S), (Change.erase b).apply s)
  size : s.size = S.card ∧ (s.words.toList.map Word.ones).sum = S.card
  isEmpty : s.isEmpty = true ↔ S = ∅
  ascending : s.toList.Pairwise (· < ·) ∧ ∀ b, b ∈ s.toList ↔ b ∈ S
  iterated : ∀ i, s.nth s.cursor i = s.toList[i]?
  refused : ∀ b, n ≤ b → s.contains b = .error (.outsideSet b n) ∧
    s.insert b = .error (.outsideSet b n) ∧ s.erase b = .error (.outsideSet b n) ∧
    (Change.insert b).apply s = s ∧ (Change.erase b).apply s = s
  wordwise : ∀ b, (Wordwise.contains b).exec s = (s.contains b, s) ∧
    (Wordwise.insert b).exec s = s.settle (s.insert b) ∧
    (Wordwise.erase b).exec s = s.settle (s.erase b)

theorem Represents.answers (h : Represents n s S) : Answers n s S where
  below := h.lt
  contains _ hb := h.contains hb
  insert b hb := by rw [Change.apply, (h.insert hb).1]; rfl
  erase b hb := by rw [Change.apply, (h.erase hb).1]; rfl
  size := ⟨h.size, s.size_eq_sum ▸ h.size⟩
  isEmpty := h.isEmpty_iff
  ascending := ⟨toList_pairwise s, fun _ => h.mem_toList⟩
  iterated i := by rw [nth_eq, left_cursor]
  refused b hb := by
    obtain ⟨hcontains, hinsert, herase⟩ := h.refused hb
    rw [Change.apply, Change.apply, hinsert, herase]
    exact ⟨hcontains, rfl, rfl, rfl, rfl⟩
  wordwise := wordwise_eq s

theorem represents_after (n : Nat) (cs : List Change) :
    Represents n (after n cs) (contents n cs) := by
  induction cs using List.reverseRecOn with
  | nil => exact .empty n
  | append_singleton cs c ih =>
      rw [after, contents, List.foldl_append, List.foldl_append]
      exact ih.act c

theorem answers_after (n : Nat) (cs : List Change) :
    Answers n (after n cs) (contents n cs) ∧
      ∀ ds, after n cs = after n ds ↔ contents n cs = contents n ds :=
  ⟨(represents_after n cs).answers,
    fun ds => (represents_after n cs).eq_iff (represents_after n ds)⟩

end IdSet

end ControlFlow

import ControlFlow.IdSet
import Mathlib.Data.List.Sort

namespace ControlFlow

namespace Word

variable {w v : UInt64} {i j : Nat}

theorem eq_of_bit (h : ∀ i < 64, bit w i = bit v i) : w = v :=
  UInt64.toBitVec_inj.mp (BitVec.eq_of_getLsbD_eq h)

def trailingZeros (w : UInt64) : Nat :=
  w.toBitVec.ctz.toNat

theorem bit_of_lt_trailingZeros (hi : i < trailingZeros w) : bit w i = false :=
  BitVec.getLsbD_false_of_lt_ctz hi

theorem bit_trailingZeros (hw : w ≠ 0) : bit w (trailingZeros w) = true :=
  BitVec.getLsbD_true_ctz_of_ne_zero fun h => hw (UInt64.toBitVec_inj.mp h)

theorem lt_of_bit (h : bit w i = true) : i < 64 :=
  BitVec.lt_of_getLsbD h

theorem testBit_and_sub_one {n z : Nat} (hz : n.testBit z = true)
    (hlow : ∀ j < z, n.testBit j = false) (i : Nat) :
    (n &&& (n - 1)).testBit i = (n.testBit i && !decide (z = i)) := by
  have hmod : n % 2 ^ z = 0 := by
    refine Nat.eq_of_testBit_eq fun j => ?_
    rw [Nat.testBit_mod_two_pow, Nat.zero_testBit]
    by_cases hj : j < z
    · rw [hlow j hj, Bool.and_false]
    · rw [decide_eq_false hj, Bool.false_and]
  obtain ⟨m, rfl⟩ := Nat.dvd_of_mod_eq_zero hmod
  -- above the lowest one the two numbers have the same bits, below it `n` has none
  have hodd : m % 2 = 1 := by
    simpa [Nat.testBit_two_pow_mul] using hz
  have hpred : 2 ^ z * m - 1 = 2 ^ z * (m - 1) + (2 ^ z - 1) := by
    have hpos := Nat.two_pow_pos z
    obtain ⟨k, rfl⟩ : ∃ k, m = k + 1 := ⟨m - 1, by omega⟩
    rw [Nat.mul_succ, Nat.add_sub_cancel]
    omega
  rw [Nat.testBit_and, hpred,
    Nat.testBit_two_pow_mul_add _ (Nat.sub_lt (Nat.two_pow_pos z) Nat.one_pos),
    Nat.testBit_two_pow_mul]
  by_cases hi : i < z
  · simp [Nat.not_le.mpr hi]
  · obtain ⟨k, rfl⟩ := Nat.exists_eq_add_of_le (Nat.not_lt.mp hi)
    cases k with
    | zero =>
        have heven : (m - 1) % 2 = 0 := by omega
        simp [Nat.testBit_zero, heven]
    | succ k =>
        have hhalf : (m - 1) / 2 = m / 2 := by omega
        have hge : ¬z + (k + 1) < z := by omega
        simp [Nat.testBit_succ, hhalf, hge]

theorem bit_and_sub_one (hw : w ≠ 0) :
    bit (w &&& (w - 1)) i = (bit w i && !decide (trailingZeros w = i)) := by
  have hone : (1 : UInt64) ≤ w := by
    rw [UInt64.le_iff_toNat_le]
    exact Nat.one_le_iff_ne_zero.mpr fun h => hw (UInt64.toNat_inj.mp h)
  have hnat : ∀ v i, bit v i = v.toNat.testBit i := fun _ _ => rfl
  rw [hnat, hnat, UInt64.toNat_and, UInt64.toNat_sub_of_le _ _ hone]
  exact testBit_and_sub_one (bit_trailingZeros hw) (fun j hj => bit_of_lt_trailingZeros hj) i

theorem bits_pairwise (w : UInt64) : (bits w).Pairwise (· < ·) :=
  List.pairwise_lt_range.filter _

theorem bits_zero : bits 0 = [] := by
  simp [bits, bit_zero]

theorem bits_of_ne_zero (hw : w ≠ 0) :
    bits w = trailingZeros w :: bits (w &&& (w - 1)) := by
  have hmem : ∀ i, i ∈ bits (w &&& (w - 1)) ↔ i ∈ bits w ∧ trailingZeros w ≠ i := by
    intro i
    simp [mem_bits, bit_and_sub_one hw, and_assoc]
  have hlow := bit_trailingZeros hw
  refine (bits_pairwise w).eq_of_mem_iff (List.pairwise_cons.mpr ⟨fun i hi => ?_, ?_⟩) fun i => ?_
  · obtain ⟨hi, hne⟩ := (hmem i).mp hi
    refine lt_of_le_of_ne (Nat.not_lt.mp fun hlt => ?_) hne
    rw [mem_bits, bit_of_lt_trailingZeros hlt] at hi
    exact Bool.false_ne_true hi.2
  · exact bits_pairwise _
  · rw [List.mem_cons, hmem]
    constructor
    · exact fun hi => (eq_or_ne i _).imp_right fun hne => ⟨hi, hne.symm⟩
    · rintro (rfl | ⟨hi, -⟩)
      · exact mem_bits.mpr ⟨lt_of_bit hlow, hlow⟩
      · exact hi

end Word

namespace IdSet

variable {s s' : IdSet} {b c n : Nat}

theorem has_eq_bit {w : UInt64} (hw : s.words[b / 64]? = some w) :
    s.has b = Word.bit w (b % 64) := by
  rw [has, hw]

theorem eq_of_words (hcapacity : s.capacity = s'.capacity) (hwords : s.words = s'.words) :
    s = s' := by
  cases s
  cases s'
  cases hcapacity
  cases hwords
  rfl

theorem eq_of_has (hcapacity : s.capacity = s'.capacity) (h : ∀ b, s.has b = s'.has b) :
    s = s' := by
  have hsize : s.words.size = s'.words.size := by rw [s.size_words, s'.size_words, hcapacity]
  refine eq_of_words hcapacity (Array.ext hsize fun k hk hk' => Word.eq_of_bit fun i hi => ?_)
  have hdiv : (64 * k + i) / 64 = k := by omega
  have hmod : (64 * k + i) % 64 = i := by omega
  have hbit := h (64 * k + i)
  rwa [has_eq_bit (w := s.words[k]) (by rw [hdiv]; exact Array.getElem?_eq_getElem hk),
    has_eq_bit (w := s'.words[k]) (by rw [hdiv]; exact Array.getElem?_eq_getElem hk'), hmod] at hbit

theorem put_eq_self (hb : b < s.capacity) (hhas : s.has b = true) : s.put b = s := by
  refine eq_of_has (capacity_put s b) fun c => ?_
  rw [has_put hb]
  by_cases hbc : b = c
  · rw [← hbc, hhas, Bool.true_or]
  · rw [decide_eq_false hbc, Bool.or_false]

section Ascending

def idsOf (w : UInt64) (k : Nat) : List BlockId :=
  (Word.bits w).map (64 * k + ·)

theorem mem_idsOf {w : UInt64} {k : Nat} :
    b ∈ idsOf w k ↔ k = b / 64 ∧ Word.bit w (b % 64) = true := by
  rw [idsOf, List.mem_map]
  constructor
  · rintro ⟨i, hi, rfl⟩
    obtain ⟨hlt, hbit⟩ := Word.mem_bits.mp hi
    rw [show (64 * k + i) / 64 = k by omega, show (64 * k + i) % 64 = i by omega]
    exact ⟨rfl, hbit⟩
  · rintro ⟨rfl, hbit⟩
    exact ⟨b % 64, Word.mem_bits.mpr ⟨Nat.mod_lt _ (by decide), hbit⟩, Nat.div_add_mod b 64⟩

theorem toList_eq (s : IdSet) : s.toList = s.words.toList.zipIdx.flatMap fun p => idsOf p.1 p.2 :=
  rfl

theorem mem_toList : b ∈ s.toList ↔ s.has b = true := by
  simp only [toList_eq, List.mem_flatMap, List.mem_zipIdx_iff_getElem?, Array.getElem?_toList,
    mem_idsOf, Prod.exists]
  constructor
  · rintro ⟨w, _, hw, rfl, hbit⟩
    rw [has_eq_bit hw, hbit]
  · intro hhas
    rw [has] at hhas
    split at hhas
    · rename_i w hw
      exact ⟨w, _, hw, rfl, hhas⟩
    · cases hhas

theorem toList_pairwise (s : IdSet) : s.toList.Pairwise (· < ·) := by
  rw [toList_eq, List.pairwise_flatMap]
  constructor
  · rintro ⟨w, k⟩ -
    refine List.pairwise_map.mpr ((Word.bits_pairwise w).imp fun hij => ?_)
    exact Nat.add_lt_add_left hij _
  · have hplaces : (s.words.toList.zipIdx.map Prod.snd).Pairwise (· < ·) := by
      rw [List.zipIdx_map_snd]
      exact List.pairwise_lt_range'
    refine (List.pairwise_map.mp hplaces).imp ?_
    rintro ⟨w, k⟩ ⟨v, l⟩ hkl b hb c hc
    obtain ⟨hk, -⟩ := mem_idsOf.mp hb
    obtain ⟨hl, -⟩ := mem_idsOf.mp hc
    simp only at hkl hk hl
    lia

theorem length_toList (s : IdSet) : s.toList.length = s.size := by
  have hwords := congrArg (List.map fun w => (Word.bits w).length)
    (List.zipIdx_map_fst 0 s.words.toList)
  rw [List.map_map] at hwords
  rw [toList_eq, size, List.length_flatMap, List.length_flatMap, ← hwords]
  simp only [idsOf, List.length_map]
  rfl

end Ascending

section Cursor

structure Cursor where
  place : Nat
  rest : UInt64

def cursor (s : IdSet) : Cursor :=
  ⟨0, s.words[0]?.getD 0⟩

def next (s : IdSet) (c : Cursor) : Option BlockId × Cursor :=
  if c.rest ≠ 0 then
    (some (c.place * 64 + Word.trailingZeros c.rest), { c with rest := c.rest &&& (c.rest - 1) })
  else
    match _h : s.words[c.place + 1]? with
    | some w => s.next ⟨c.place + 1, w⟩
    | none => (none, { c with place := c.place + 1 })
termination_by s.words.size - c.place
decreasing_by
  have := (Array.getElem?_eq_some_iff.mp _h).1
  omega

def nth (s : IdSet) (c : Cursor) : Nat → Option BlockId
  | 0 => (s.next c).1
  | i + 1 => s.nth (s.next c).2 i

def left (s : IdSet) (c : Cursor) : List BlockId :=
  idsOf c.rest c.place ++
    (s.words.toList.zipIdx.drop (c.place + 1)).flatMap fun p => idsOf p.1 p.2

theorem left_cursor (s : IdSet) : s.left s.cursor = s.toList := by
  rw [toList_eq, left, cursor, ← Array.getElem?_toList]
  cases s.words.toList with
  | nil => simp [idsOf, Word.bits_zero]
  | cons w ws => simp

theorem left_of_zero {k : Nat} {w : UInt64} (hw : s.words[k + 1]? = some w) :
    s.left ⟨k, 0⟩ = s.left ⟨k + 1, w⟩ := by
  obtain ⟨hk, hw⟩ := Array.getElem?_eq_some_iff.mp hw
  have hdrop : s.words.toList.zipIdx.drop (k + 1) =
      (w, k + 1) :: s.words.toList.zipIdx.drop (k + 1 + 1) := by
    rw [List.drop_eq_getElem_cons (by simpa using hk)]
    simp [hw]
  rw [left, left, hdrop, List.flatMap_cons]
  simp [idsOf, Word.bits_zero]

theorem next_eq (s : IdSet) (c : Cursor) :
    (s.next c).1 = (s.left c).head? ∧ s.left (s.next c).2 = (s.left c).tail := by
  fun_induction next s c with
  | case1 c hrest =>
      simp [left, idsOf, Word.bits_of_ne_zero hrest, Nat.mul_comm]
  | case2 c hrest w hw ih =>
      have hc : c = ⟨c.place, 0⟩ := by rw [← not_not.mp hrest]
      rw [hc, left_of_zero hw]
      exact ih
  | case3 c hrest hw =>
      have hlen : s.words.size ≤ c.place + 1 := Array.getElem?_eq_none_iff.mp hw
      have hend : s.left c = [] := by
        rw [left, not_not.mp hrest, List.drop_eq_nil_of_le (by simpa using hlen)]
        simp [idsOf, Word.bits_zero]
      have hend' : s.left { c with place := c.place + 1 } = [] := by
        rw [left, not_not.mp hrest, List.drop_eq_nil_of_le (by simpa using Nat.le_succ_of_le hlen)]
        simp [idsOf, Word.bits_zero]
      rw [hend, hend']
      exact ⟨rfl, rfl⟩

theorem nth_eq (s : IdSet) (c : Cursor) (i : Nat) : s.nth c i = (s.left c)[i]? := by
  induction i generalizing c with
  | zero => rw [nth, (s.next_eq c).1, List.head?_eq_getElem?]
  | succ i ih => rw [nth, ih, (s.next_eq c).2, List.getElem?_tail]

end Cursor

end IdSet

end ControlFlow

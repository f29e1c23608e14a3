import ControlFlow.Fault

/-!
Sets of block ids below a fixed capacity, packed 64 to a word. The view of a set is `has`; each
operation is stated through it. `room` counts the ids still absent, so a walk that only ever
puts absent ids into a set comes to an end.
-/

namespace ControlFlow

namespace Word

def single (i : Nat) : UInt64 :=
  .ofBitVec (BitVec.twoPow 64 i)

def bit (w : UInt64) (i : Nat) : Bool :=
  w.toBitVec.getLsbD i

theorem bit_zero (i : Nat) : bit 0 i = false := by
  simp [bit]

theorem bit_or_single {i j : Nat} (w : UInt64) (hi : i < 64) :
    bit (w ||| single i) j = (bit w j || decide (i = j)) := by
  simp [bit, single, BitVec.getLsbD_twoPow, hi]

theorem bit_and_not_single {i j : Nat} (w : UInt64) :
    bit (w &&& ~~~single i) j = (bit w j && !decide (i = j)) := by
  by_cases hj : j < 64
  · simp [bit, single, hj, eq_comm]
  · have hw : w.toBitVec.getLsbD j = false := BitVec.getLsbD_of_ge _ _ (Nat.le_of_not_lt hj)
    simp [bit, hw]

def bits (w : UInt64) : List Nat :=
  (List.range 64).filter (bit w)

theorem mem_bits {w : UInt64} {i : Nat} : i ∈ bits w ↔ i < 64 ∧ bit w i = true := by
  simp [bits]

end Word

structure IdSet where
  capacity : Nat
  words : Array UInt64
  size_words : words.size = (capacity + 63) / 64
  deriving DecidableEq

namespace IdSet

def empty (capacity : Nat) : IdSet :=
  ⟨capacity, Array.replicate ((capacity + 63) / 64) 0, by simp⟩

def has (s : IdSet) (b : BlockId) : Bool :=
  match s.words[b / 64]? with
  | some w => Word.bit w (b % 64)
  | none => false

def put (s : IdSet) (b : BlockId) : IdSet :=
  { s with
    words := s.words.modify (b / 64) (· ||| Word.single (b % 64))
    size_words := by simp [s.size_words] }

def drop (s : IdSet) (b : BlockId) : IdSet :=
  { s with
    words := s.words.modify (b / 64) (· &&& ~~~Word.single (b % 64))
    size_words := by simp [s.size_words] }

def clear (s : IdSet) : IdSet :=
  empty s.capacity

def toList (s : IdSet) : List BlockId :=
  s.words.toList.zipIdx.flatMap fun (w, k) => (Word.bits w).map (64 * k + ·)

def size (s : IdSet) : Nat :=
  (s.words.toList.flatMap Word.bits).length

def isEmpty (s : IdSet) : Bool :=
  s.words.all (· == 0)

theorem word_lt {s : IdSet} {b : BlockId} (h : b < s.capacity) : b / 64 < s.words.size := by
  rw [s.size_words]
  lia

@[simp] theorem capacity_put (s : IdSet) (b : BlockId) : (s.put b).capacity = s.capacity := rfl

@[simp] theorem capacity_drop (s : IdSet) (b : BlockId) : (s.drop b).capacity = s.capacity := rfl

@[simp] theorem capacity_empty (n : Nat) : (empty n).capacity = n := rfl

theorem has_empty (n : Nat) (b : BlockId) : (empty n).has b = false := by
  simp only [has, empty, Array.getElem?_replicate]
  split
  · rename_i w hw
    split at hw
    · cases hw
      exact Word.bit_zero _
    · cases hw
  · rfl

theorem has_put {s : IdSet} {b : BlockId} (h : b < s.capacity) (c : BlockId) :
    (s.put b).has c = (s.has c || decide (b = c)) := by
  have hb := word_lt h
  have hm : b % 64 < 64 := Nat.mod_lt _ (by decide)
  simp only [has, put, Array.getElem?_modify]
  by_cases hq : b / 64 = c / 64
  · have hc : c / 64 < s.words.size := hq ▸ hb
    simp only [hq, if_true, Array.getElem?_eq_getElem hc, Option.map_some, Word.bit_or_single _ hm]
    have : (b % 64 = c % 64) ↔ b = c := by lia
    simp [this]
  · have : b ≠ c := fun e => hq (by rw [e])
    simp [hq, this]

theorem has_drop {s : IdSet} {b : BlockId} (h : b < s.capacity) (c : BlockId) :
    (s.drop b).has c = (s.has c && !decide (b = c)) := by
  have hb := word_lt h
  simp only [has, drop, Array.getElem?_modify]
  by_cases hq : b / 64 = c / 64
  · have hc : c / 64 < s.words.size := hq ▸ hb
    simp only [hq, if_true, Array.getElem?_eq_getElem hc, Option.map_some,
      Word.bit_and_not_single]
    have : (b % 64 = c % 64) ↔ b = c := by lia
    simp [this]
  · have : b ≠ c := fun e => hq (by rw [e])
    simp [hq, this]

def room (s : IdSet) : Nat :=
  (List.range s.capacity).countP (fun b => !s.has b)

theorem countP_lt_of_witness {p q : Nat → Bool} {l : List Nat} (hpq : ∀ x, p x = true → q x = true)
    {a : Nat} (ha : a ∈ l) (hp : p a = false) (hq : q a = true) : l.countP p < l.countP q := by
  induction l with
  | nil => cases ha
  | cons x xs ih =>
      have hle : xs.countP p ≤ xs.countP q := List.countP_mono_left fun y _ => hpq y
      rcases List.mem_cons.mp ha with rfl | hxs
      · simp only [List.countP_cons, hp, hq, Bool.false_eq_true, if_true, if_false]
        exact Nat.lt_succ_of_le hle
      · have hlt := ih hxs
        simp only [List.countP_cons]
        cases hx : p x with
        | true =>
            simp only [hpq x hx, if_true]
            exact Nat.succ_lt_succ hlt
        | false =>
            simp only [Bool.false_eq_true, if_false, Nat.add_zero]
            exact Nat.lt_of_lt_of_le hlt (Nat.le_add_right _ _)

theorem room_put_lt {s : IdSet} {b : BlockId} (h : b < s.capacity) (hb : s.has b = false) :
    (s.put b).room < s.room := by
  refine countP_lt_of_witness (a := b) ?_ (List.mem_range.mpr h) ?_ ?_
  · intro x hx
    rw [has_put h] at hx
    cases hs : s.has x <;> simp [hs] at hx ⊢
  · simp [has_put h]
  · simp [hb]

def guard (s : IdSet) (b : BlockId) : Except Fault Unit :=
  if b < s.capacity then .ok () else .error (.outsideSet b s.capacity)

def contains (s : IdSet) (b : BlockId) : Except Fault Bool := do
  s.guard b
  return s.has b

def insert (s : IdSet) (b : BlockId) : Except Fault (Bool × IdSet) := do
  s.guard b
  return (!s.has b, s.put b)

theorem guard_of_lt {s : IdSet} {b : BlockId} (hb : b < s.capacity) : s.guard b = .ok () :=
  if_pos hb

theorem guard_of_ge {s : IdSet} {b : BlockId} (hb : s.capacity ≤ b) :
    s.guard b = .error (.outsideSet b s.capacity) :=
  if_neg (Nat.not_lt.mpr hb)

theorem contains_of_lt {s : IdSet} {b : BlockId} (hb : b < s.capacity) :
    s.contains b = .ok (s.has b) := by
  rw [contains, guard_of_lt hb]
  rfl

theorem insert_of_lt {s : IdSet} {b : BlockId} (hb : b < s.capacity) :
    s.insert b = .ok (!s.has b, s.put b) := by
  rw [insert, guard_of_lt hb]
  rfl

def erase (s : IdSet) (b : BlockId) : Except Fault (Bool × IdSet) := do
  s.guard b
  return (s.has b, s.drop b)

/-- Inserts in list order and counts the ids that were absent. Stops at the first id refused;
the set then holds the ids before it. -/
def insertAll (s : IdSet) : List BlockId → Nat → Except Fault Nat × IdSet
  | [], n => (.ok n, s)
  | b :: bs, n =>
      match s.guard b with
      | .error e => (.error e, s)
      | .ok () =>
          let n := if s.has b then n else n + 1
          (s.put b).insertAll bs n

def text (s : IdSet) : String :=
  "\x7b" ++ BlockId.taggedItems s.toList ++ "\x7d"

end IdSet

end ControlFlow

import ControlFlow.Fault

namespace ControlFlow

variable {α : Type} {n : Nat}

def lookUp (T : Array α) (i : Nat) : Except Fault α :=
  match T[i]? with
  | some x => .ok x
  | none => .error .indexOutOfBounds

theorem lookUp_of_some {T : Array α} {i : Nat} {x : α} (h : T[i]? = some x) :
    lookUp T i = .ok x := by
  rw [lookUp, h]

@[simp] theorem vector_get_set (v : Vector α n) (i j : Fin n) (x : α) :
    (v.set i x i.isLt).get j = if i = j then x else v.get j := by
  change (v.set i x i.isLt)[j.val] = if i = j then x else v[j.val]
  simp only [Vector.getElem_set, Fin.ext_iff]

@[simp] theorem vector_get_ofFn (f : Fin n → α) (i : Fin n) : (Vector.ofFn f).get i = f i := by
  change (Vector.ofFn f)[i.val] = f i
  simp only [Vector.getElem_ofFn]

@[simp] theorem vector_get_replicate (x : α) (i : Fin n) : (Vector.replicate n x).get i = x := by
  change (Vector.replicate n x)[i.val] = x
  simp only [Vector.getElem_replicate]

theorem vector_ext {v w : Vector α n} (h : ∀ i, v.get i = w.get i) : v = w :=
  Vector.ext fun i hi => h ⟨i, hi⟩

theorem drop_finRange {i : Nat} (hi : i < n) :
    (List.finRange n).drop i = ⟨i, hi⟩ :: (List.finRange n).drop (i + 1) := by
  rw [List.drop_eq_getElem_cons (by simpa using hi), List.getElem_finRange]
  rfl

theorem mem_drop_finRange {i : Nat} {v : Fin n} : v ∈ (List.finRange n).drop i ↔ i ≤ v.val := by
  rw [List.mem_drop_iff_getElem]
  constructor
  · rintro ⟨k, hk, rfl⟩
    simp
  · intro h
    refine ⟨v.val - i, by simp; omega, ?_⟩
    ext
    simp
    omega

end ControlFlow

import ControlFlow.Proofs.Semidominator.Compression
import ControlFlow.Proofs.Semidominator.Sweep

namespace ControlFlow

variable {n : Nat}

abbrev Evaluation (n : Nat) :=
  SemiForest n → Fin n → SemiForest n × Fin n

def SemiForest.lowerBy (E : Evaluation n) (F : SemiForest n) (i v : Fin n) : SemiForest n :=
  let (F, u) := E F v
  if F.semi.get u < F.semi.get i then { F with semi := F.semi.set i (F.semi.get u) i.isLt } else F

namespace Sweep

variable {S : Spanning n} {i root : Fin n} {s : Sweep n}
  {y : Except Fault (Sweep n)}

def resolveBy (E : Evaluation n) (p : Fin n) (s : Sweep n) (v : Fin n) : Sweep n :=
  let (F, u) := E s.forest v
  { s with
    forest := F
    idom := s.idom.set v (if F.semi.get u < F.semi.get v then u else p) v.isLt }

/-- A sweep between two of its calls. Before `vertex` is linked, its predecessors are evaluated, and
then the vertices that waited in the bucket of its parent; `rest` has those still to come. -/
structure Moment (n : Nat) where
  vertex : Fin n
  linked : Bool
  rest : List (Fin n)
  sweep : Sweep n

namespace Moment

def arrive (S : Spanning n) (i : Fin n) (s : Sweep n) : Moment n :=
  ⟨i, false, S.preds.get i, s⟩

def first (S : Spanning n) (root : Fin n) (h : 1 < n) : Moment n :=
  arrive S ⟨n - 1, by omega⟩ (start root)

def turn (E : Evaluation n) (S : Spanning n) : Moment n → Moment n ⊕ Except Fault (Sweep n)
  | ⟨i, false, v :: rest, s⟩ => .inl ⟨i, false, rest, { s with forest := s.forest.lowerBy E i v }⟩
  | ⟨i, false, [], s⟩ =>
      let k := s.forest.semi.get i
      if k < i then
        let p := S.parent.get i
        let bucket := s.bucket.set k (i :: s.bucket.get k) k.isLt
        .inl ⟨i, true, (bucket.get p).reverse,
          ⟨s.forest.link p i, bucket.set p [] p.isLt, s.idom⟩⟩
      else .inr (.error (.violation (.semidominatorNotAbove (S.block.get i) i k)))
  | ⟨i, true, v :: rest, s⟩ => .inl ⟨i, true, rest, resolveBy E (S.parent.get i) s v⟩
  | ⟨i, true, [], s⟩ =>
      if 1 < i.val then .inl (arrive S ⟨i.val - 1, by omega⟩ s) else .inr (.ok s)

inductive After (E : Evaluation n) (S : Spanning n) (root : Fin n) : Nat → Moment n → Prop
  | first (h : 1 < n) : After E S root 0 (first S root h)
  | turn {k : Nat} {a a' : Moment n} :
      After E S root k a → a.turn E S = .inl a' → After E S root (k + 1) a'

def compress (x : Fin n) (a : Moment n) : Moment n :=
  { a with sweep := { a.sweep with forest := a.sweep.forest.compress x } }

inductive Strays (S : Spanning n) (root : Fin n) : Nat → Moment n → Prop
  | first (h : 1 < n) : Strays S root 0 (first S root h)
  | turn {k : Nat} {a a' : Moment n} :
      Strays S root k a → a.turn SemiForest.eval S = .inl a' → Strays S root (k + 1) a'
  | compress {k : Nat} {a : Moment n} (x : Fin n) :
      Strays S root k a → Strays S root k (a.compress x)

theorem After.strays {k : Nat} {a : Moment n} (h : After SemiForest.eval S root k a) :
    Strays S root k a := by
  induction h with
  | first h => exact .first h
  | turn _ hturn ih => exact .turn ih hturn

theorem ends_lower (vs : List (Fin n))
    (h : Ends (turn SemiForest.eval S)
      ⟨i, false, [], { s with forest := vs.foldl (·.lower i) s.forest }⟩ y) :
    Ends (turn SemiForest.eval S) ⟨i, false, vs, s⟩ y := by
  induction vs generalizing s with
  | nil => exact h
  | cons v vs ih => exact .turn rfl (ih h)

theorem ends_resolve (vs : List (Fin n))
    (h : Ends (turn SemiForest.eval S)
      ⟨i, true, [], vs.foldl (resolve (S.parent.get i)) s⟩ y) :
    Ends (turn SemiForest.eval S) ⟨i, true, vs, s⟩ y := by
  induction vs generalizing s with
  | nil => exact h
  | cons v vs ih => exact .turn rfl (ih h)

theorem ends_visit {f : Sweep n → Except Fault (Sweep n)}
    (h : ∀ s', Ends (turn SemiForest.eval S) ⟨i, true, [], s'⟩ (f s')) :
    Ends (turn SemiForest.eval S) (arrive S i s) (visit S i s >>= f) := by
  refine ends_lower _ ?_
  rw [visit_eq]
  by_cases hk : (fill S i s).forest.semi.get i < i
  · rw [if_pos hk]
    exact .turn (if_pos hk) (ends_resolve _ (h _))
  · rw [if_neg hk]
    exact .last (if_neg hk)

theorem ends_down (j : Nat) (hj : j + 1 < n) (s : Sweep n) :
    Ends (turn SemiForest.eval S) (arrive S ⟨j + 1, hj⟩ s) (down S (j + 1) hj s) := by
  induction j generalizing s with
  | zero =>
      refine ends_visit fun s' => .last ?_
      rw [turn, if_neg (Nat.lt_irrefl 1)]
      rfl
  | succ j ih =>
      refine ends_visit fun s' => .turn ?_ (ih (Nat.lt_of_succ_lt hj) s')
      rw [turn, if_pos (Nat.succ_lt_succ (Nat.succ_pos j))]
      rfl

theorem ends_first (h : 1 < n) :
    Ends (turn SemiForest.eval S) (first S root h)
      (down S (n - 1) (by omega) (start root)) := by
  obtain ⟨j, rfl⟩ := Nat.exists_eq_add_of_le' h
  exact ends_down j (Nat.lt_succ_self _) (start root)

end Moment

end Sweep

end ControlFlow

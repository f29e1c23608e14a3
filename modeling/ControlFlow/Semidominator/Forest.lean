/-!
The forest that grows while semidominators are computed. Vertices are depth-first numbers; `link`
hangs a vertex under its parent and `eval` finds a vertex of least semidominator on the way up,
shortening the way as it goes.
-/

namespace ControlFlow

structure SemiForest (n : Nat) where
  semi : Vector (Fin n) n
  /-- A vertex of least semidominator on the part of the way that `up` skips. -/
  label : Vector (Fin n) n
  up : Vector (Option (Fin n)) n

namespace SemiForest

variable {n : Nat}

def discrete (n : Nat) : SemiForest n :=
  ⟨.ofFn id, .ofFn id, .replicate n none⟩

def link (F : SemiForest n) (parent child : Fin n) : SemiForest n :=
  { F with up := F.up.set child (some parent) child.isLt }

def skip (F : SemiForest n) (x a : Fin n) : SemiForest n :=
  { F with
    label :=
      if F.semi.get (F.label.get a) < F.semi.get (F.label.get x) then
        F.label.set x (F.label.get a) x.isLt
      else F.label
    up := F.up.set x (F.up.get a) x.isLt }

/-- The links on the way up from `x` put before `below`, the highest first. The link to a root is
left out. Links lead to smaller numbers, so the way ends. -/
def links (F : SemiForest n) (x : Fin n) (below : List (Fin n × Fin n)) : List (Fin n × Fin n) :=
  match F.up.get x with
  | none => below
  | some a =>
      if _ : a < x then
        if (F.up.get a).isSome then F.links a ((x, a) :: below) else below
      else below
termination_by x.val

theorem links_append (F : SemiForest n) (x : Fin n) (below : List (Fin n × Fin n)) :
    F.links x below = F.links x [] ++ below := by
  rw [links, links.eq_def F x []]
  cases F.up.get x with
  | none => rfl
  | some a =>
      simp only
      split
      · split
        · rw [links_append F a ((x, a) :: below), links_append F a [(x, a)]]
          simp only [List.append_assoc, List.cons_append, List.nil_append]
        · rfl
      · rfl
termination_by x.val

def compress (F : SemiForest n) (x : Fin n) : SemiForest n :=
  (F.links x []).foldl (fun F l => F.skip l.1 l.2) F

theorem compress_eq (F : SemiForest n) (x : Fin n) :
    F.compress x =
      match F.up.get x with
      | none => F
      | some a =>
          if a < x then if (F.up.get a).isSome then (F.compress a).skip x a else F else F := by
  rw [compress, links]
  cases F.up.get x with
  | none => rfl
  | some a =>
      simp only
      split
      · split
        · rw [links_append, List.foldl_append]
          rfl
        · rfl
      · rfl

def eval (F : SemiForest n) (v : Fin n) : SemiForest n × Fin n :=
  match F.up.get v with
  | none => (F, v)
  | some _ =>
      let F := F.compress v
      (F, F.label.get v)

def lower (F : SemiForest n) (i v : Fin n) : SemiForest n :=
  let (F, u) := F.eval v
  if F.semi.get u < F.semi.get i then { F with semi := F.semi.set i (F.semi.get u) i.isLt } else F

end SemiForest

end ControlFlow

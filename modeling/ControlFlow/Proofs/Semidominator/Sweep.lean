import ControlFlow.Proofs.Semidominator.Forest

/-!
A visit of the sweep, whatever the predecessors: as long as parents come before their children, it
finds the least of the leaps to the vertex visited, or refuses it if there is none from before. On a
depth-first spanning tree that is the semidominator. There a visit also empties the bucket of the
parent at the moment when just the subtree of the visited vertex is linked under that parent, and
so settles the vertices that waited.
-/

namespace ControlFlow

open Relation

variable {n t : Nat} {S : Spanning n} {F : SemiForest n} {a c d i k p u v w x y : Fin n}

namespace Spanning

/-- What is settled about the dominator of `v` before the last pass: it is the semidominator, or
`v` shares the dominator of `d`. -/
inductive Provisional (S : Spanning n) (v d : Fin n) : Prop
  | own (semi : S.IsSemidominator d v)
      (least : ∀ u c, d < u → Above S.up u v → S.Detour c u → d ≤ c)
  | shared (k m : Fin n) (semi : S.IsSemidominator k v) (above : Above S.up d v) (lt : k < d)
      (semi_above : S.IsSemidominator m d) (lower : m < k)
      (least : ∀ u c, k < u → Above S.up u v → S.Detour c u → m ≤ c)

theorem DepthFirst.le_of_above (hS : S.DepthFirst) (hi : i.val ≠ 0) (hp : S.parent.get i = p)
    (hiv : i ≤ v) (hpv : Above S.up p v)
    (hlast : ∀ c : Fin n, c.val ≠ 0 → S.parent.get c = p → i < c → ¬c ≤ v)
    (hy : Above S.up y v) (hpy : p < y) : i ≤ y := by
  have hpi : p < i := hp ▸ hS.descends i hi
  have hup : S.up i = some p := up_eq_some_iff.mpr ⟨hi, hp⟩
  have hiv : Above S.up i v := by
    obtain ⟨q, hq, hqp, hpq, hqv⟩ := hS.descends.exists_child hpv (hpi.trans_le hiv).ne
    have hqi : q ≤ i := not_lt.mp fun h => hlast q hq hqp h (hS.descends.le hqv)
    have habove : Above S.up q i := hS.contiguous q i v hqv hqi hiv
    by_cases hne : q = i
    · exact hne ▸ hqv
    · exact absurd (hS.descends.le (habove.up_of_ne hne hup)) (not_le.mpr hpq)
  by_contra hlt
  have hlt := not_le.mp hlt
  have hyi : Above S.up y i := hS.descends.above_of_le hy hiv hlt.le
  exact absurd (hS.descends.le (hyi.up_of_ne hlt.ne hup)) (not_le.mpr hpy)

end Spanning

namespace SemiForest

structure Lowered (F : SemiForest n) (S : Spanning n) (i : Fin n) (seen : List (Fin n)) :
    Prop where
  tracks : F.Tracks S (i.val + 1)
  least : ∀ w, i < w → IsLeast {c | S.Leap c w} (F.semi.get w)
  rest : ∀ w, w < i → F.semi.get w = w
  le : F.semi.get i ≤ i
  bound : F.semi.get i = i ∨ S.Leap (F.semi.get i) i
  direct : ∀ v ∈ seen, v < i → F.semi.get i ≤ v
  through : ∀ v ∈ seen, ∀ u, i < u → Above S.up u v → F.semi.get i ≤ F.semi.get u

variable {seen : List (Fin n)}

theorem Lowered.evaluated {F' : SemiForest n} (hF : F.Lowered S i seen)
    (he : Evaluated F F' S (i.val + 1) v u) : F'.Lowered S i seen where
  tracks := he.tracks
  least := he.semi ▸ hF.least
  rest := he.semi ▸ hF.rest
  le := he.semi ▸ hF.le
  bound := he.semi ▸ hF.bound
  direct := he.semi ▸ hF.direct
  through := he.semi ▸ hF.through

theorem Lowered.value {F' : SemiForest n} (hS : S.Descends) (hF : F.Lowered S i seen)
    (hv : S.Edge v i) (he : Evaluated F F' S (i.val + 1) v u) :
    (F.semi.get u = F.semi.get i ∨ S.Leap (F.semi.get u) i) ∧
      (v < i → F.semi.get u ≤ v) ∧
      ∀ y, i < y → Above S.up y v → F.semi.get u ≤ F.semi.get y := by
  rcases lt_trichotomy v i with hlt | rfl | hgt
  · have huv := he.unlinked (Nat.lt_succ_of_lt hlt)
    subst huv
    rw [hF.rest u hlt]
    refine ⟨.inr (.edge hv), fun _ => le_rfl, fun y hy hyv => ?_⟩
    exact absurd (hS.le hyv) (not_le.mpr (hlt.trans hy))
  · have huv := he.unlinked (Nat.lt_succ_self _)
    subst huv
    refine ⟨.inl rfl, fun h => absurd h (lt_irrefl u), fun y hy hyv => ?_⟩
    exact absurd (hS.le hyv) (not_le.mpr hy)
  · have hu := he.linked hgt
    refine ⟨.inr ?_, fun h => absurd h hgt.asymm, fun y hy hyv => hu.least y hyv hy⟩
    exact .across (hF.least u hu.le).1 hu.le hu.above hv

theorem semi_lower (F : SemiForest n) (i v w : Fin n) (hw : i ≠ w) {F' : SemiForest n}
    (he : Evaluated F F' S t v u) (h : F.eval v = (F', u)) :
    (F.lower i v).semi.get w = F.semi.get w := by
  simp only [SemiForest.lower, h]
  split
  · rw [vector_get_set, if_neg hw, he.semi]
  · rw [he.semi]

theorem Lowered.lower (hS : S.Descends) (hF : F.Lowered S i seen) (hv : S.Edge v i) :
    (F.lower i v).Lowered S i (v :: seen) ∧
      ∀ w, i ≠ w → (F.lower i v).semi.get w = F.semi.get w := by
  rcases h : F.eval v with ⟨F', u⟩
  have he := hF.tracks.eval hS v
  simp only [h] at he
  refine ⟨?_, fun w hw => F.semi_lower i v w hw he h⟩
  obtain ⟨hbound, hdirect, hthrough⟩ := hF.value hS hv he
  have hF' := hF.evaluated he
  simp only [SemiForest.lower, h]
  split
  · rename_i hlt
    have hget : ∀ w, (F'.semi.set i (F'.semi.get u) i.isLt).get w =
        if i = w then F.semi.get u else F.semi.get w := by
      intro w
      rw [vector_get_set, he.semi]
    rw [he.semi] at hlt
    refine ⟨hF'.tracks.setSemi _, ?_, ?_, ?_, ?_, ?_, ?_⟩ <;> simp only [hget, if_true]
    · intro w hw
      rw [if_neg hw.ne]
      exact hF.least w hw
    · intro w hw
      rw [if_neg hw.ne']
      exact hF.rest w hw
    · exact hlt.le.trans hF.le
    · exact .inr (hbound.resolve_left hlt.ne)
    · intro y hy hyi
      rcases List.mem_cons.mp hy with rfl | hy
      · exact hdirect hyi
      · exact hlt.le.trans (hF.direct y hy hyi)
    · intro y hy z hz hzy
      rw [if_neg hz.ne]
      rcases List.mem_cons.mp hy with rfl | hy
      · exact hthrough z hz hzy
      · exact hlt.le.trans (hF.through y hy z hz hzy)
  · rename_i hge
    rw [he.semi] at hge
    have hge := not_lt.mp hge
    refine ⟨hF'.tracks, hF'.least, hF'.rest, hF'.le, hF'.bound, ?_, ?_⟩ <;> rw [he.semi]
    · intro y hy hyi
      rcases List.mem_cons.mp hy with rfl | hy
      · exact hge.trans (hdirect hyi)
      · exact hF.direct y hy hyi
    · intro y hy z hz hzy
      rcases List.mem_cons.mp hy with rfl | hy
      · exact hge.trans (hthrough z hz hzy)
      · exact hF.through y hy z hz hzy

theorem Lowered.foldl (hS : S.Descends) (hF : F.Lowered S i seen) (vs : List (Fin n))
    (hvs : ∀ v ∈ vs, S.Edge v i) :
    (vs.foldl (·.lower i) F).Lowered S i (vs.reverse ++ seen) ∧
      ∀ w, i ≠ w → (vs.foldl (·.lower i) F).semi.get w = F.semi.get w := by
  induction vs generalizing F seen with
  | nil => exact ⟨hF, fun _ _ => rfl⟩
  | cons v vs ih =>
      obtain ⟨hstep, hsemi⟩ := hF.lower hS (hvs v List.mem_cons_self)
      obtain ⟨hrest, hsemi'⟩ := ih hstep fun x hx => hvs x (List.mem_cons_of_mem _ hx)
      refine ⟨?_, fun w hw => (hsemi' w hw).trans (hsemi w hw)⟩
      simpa only [List.foldl_cons, List.reverse_cons, List.append_assoc, List.cons_append,
        List.nil_append] using hrest

theorem Lowered.le_of_leap (hF : F.Lowered S i seen) (hseen : ∀ v, S.Edge v i → v ∈ seen)
    (hc : S.Leap c i) : F.semi.get i ≤ c := by
  cases hc with
  | edge hci =>
      rcases lt_or_ge c i with hlt | hge
      · exact hF.direct c (hseen c hci) hlt
      · exact hF.le.trans hge
  | across hcu hiu huv hvi =>
      exact (hF.through _ (hseen _ hvi) _ hiu huv).trans ((hF.least _ hiu).2 hcu)

end SemiForest

namespace Sweep

variable {s : Sweep n} {seen : List (Fin n)}

structure Swept (S : Spanning n) (t : Nat) (s : Sweep n) : Prop where
  tracks : s.forest.Tracks S t
  lt : ∀ w : Fin n, t ≤ w.val → s.forest.semi.get w < w
  least : ∀ w : Fin n, t ≤ w.val → IsLeast {c | S.Leap c w} (s.forest.semi.get w)
  rest : ∀ w : Fin n, w.val < t → s.forest.semi.get w = w
  waits : ∀ v k, v ∈ s.bucket.get k → t ≤ v.val ∧ s.forest.semi.get v = k ∧
    ∀ c : Fin n, c.val ≠ 0 → S.parent.get c = k → t ≤ c.val → ¬c ≤ v
  below : ∀ v, (s.idom.get v).val ≤ v.val - 1
  settled : S.DepthFirst → ∀ v : Fin n, t ≤ v.val → v ∉ s.bucket.get (s.forest.semi.get v) →
    S.Provisional v (s.idom.get v)

theorem swept_start (S : Spanning n) {root : Fin n} (hr : root.val = 0) :
    Swept S n (start root) where
  tracks := SemiForest.tracks_discrete S
  lt w hw := absurd w.isLt (Nat.not_lt.mpr hw)
  least w hw := absurd w.isLt (Nat.not_lt.mpr hw)
  rest w _ := by simp [start, SemiForest.discrete]
  waits v k hv := by simp [start] at hv
  below v := by simp [start, hr]
  settled _ v hv := absurd v.isLt (Nat.not_lt.mpr hv)

theorem Swept.lowered (hs : Swept S (i.val + 1) s) : s.forest.Lowered S i [] where
  tracks := hs.tracks
  least w hw := hs.least w hw
  rest w hw := hs.rest w (Nat.lt_succ_of_lt hw)
  le := (hs.rest i (Nat.lt_succ_self _)).le
  bound := .inl (hs.rest i (Nat.lt_succ_self _))
  direct _ hv := absurd hv List.not_mem_nil
  through _ hv := absurd hv List.not_mem_nil

def Resolved (F : SemiForest n) (S : Spanning n) (i p v d : Fin n) : Prop :=
  ∃ u, F.LeastFrom S i v u ∧ d = if F.semi.get u < F.semi.get v then u else p

theorem Resolved.congr {F' : SemiForest n} (h : Resolved F S i p v d) (hsemi : F'.semi = F.semi) :
    Resolved F' S i p v d := by
  obtain ⟨u, hu, hd⟩ := h
  exact ⟨u, hu.congr fun _ _ => by rw [hsemi], hsemi ▸ hd⟩

theorem Resolved.lt (hS : S.Descends) (hpi : p < i) (hiv : i ≤ v)
    (h : Resolved F S i p v d) : d < v := by
  obtain ⟨u, hu, rfl⟩ := h
  split
  · rename_i hlt
    refine lt_of_le_of_ne (hS.le hu.above) ?_
    rintro rfl
    exact lt_irrefl _ hlt
  · exact hpi.trans_le hiv

theorem resolve_spec (hS : S.Descends) (htracks : s.forest.Tracks S i.val) (hv : i ≤ v) :
    (resolve p s v).forest.Tracks S i.val ∧ (resolve p s v).forest.semi = s.forest.semi ∧
      (resolve p s v).bucket = s.bucket ∧
      ∃ d, (resolve p s v).idom = s.idom.set v d v.isLt ∧ Resolved s.forest S i p v d := by
  rcases h : s.forest.eval v with ⟨F, u⟩
  have he := htracks.eval hS v
  simp only [h] at he
  simp only [resolve, h]
  refine ⟨he.tracks, he.semi, trivial, _, rfl, u, he.linked hv, ?_⟩
  rw [he.semi]

theorem foldl_resolve (hS : S.Descends) (htracks : s.forest.Tracks S i.val)
    (vs : List (Fin n)) (hvs : ∀ v ∈ vs, i ≤ v) :
    (vs.foldl (resolve p) s).forest.Tracks S i.val ∧
      (vs.foldl (resolve p) s).forest.semi = s.forest.semi ∧
      (vs.foldl (resolve p) s).bucket = s.bucket ∧
      ∀ v, (v ∈ vs ∧ Resolved s.forest S i p v ((vs.foldl (resolve p) s).idom.get v)) ∨
        (v ∉ vs ∧ (vs.foldl (resolve p) s).idom.get v = s.idom.get v) := by
  induction vs generalizing s with
  | nil => exact ⟨htracks, rfl, rfl, fun v => .inr ⟨List.not_mem_nil, rfl⟩⟩
  | cons x vs ih =>
      obtain ⟨htracks', hsemi', hbucket', d, hidom, hd⟩ :=
        resolve_spec (p := p) hS htracks (hvs x List.mem_cons_self)
      obtain ⟨h₁, h₂, h₃, h₄⟩ := ih htracks' fun v hv => hvs v (List.mem_cons_of_mem _ hv)
      refine ⟨h₁, h₂.trans hsemi', h₃.trans hbucket', fun v => ?_⟩
      rcases h₄ v with ⟨hv, hd⟩ | ⟨hv, heq⟩
      · exact .inl ⟨List.mem_cons_of_mem _ hv, hd.congr hsemi'.symm⟩
      · rw [hidom, vector_get_set] at heq
        by_cases hxv : x = v
        · subst hxv
          rw [if_pos rfl] at heq
          refine .inl ⟨List.mem_cons_self, ?_⟩
          rw [List.foldl_cons, heq]
          exact hd
        · rw [if_neg hxv] at heq
          exact .inr ⟨by simp [Ne.symm hxv, hv], heq⟩

def fill (S : Spanning n) (i : Fin n) (s : Sweep n) : Sweep n :=
  let F := (S.preds.get i).foldl (·.lower i) s.forest
  ⟨F, s.bucket.set (F.semi.get i) (i :: s.bucket.get (F.semi.get i)) (F.semi.get i).isLt, s.idom⟩

def hang (p i : Fin n) (s : Sweep n) : Sweep n :=
  ⟨s.forest.link p i, s.bucket.set p [] p.isLt, s.idom⟩

theorem visit_eq (S : Spanning n) (i : Fin n) (s : Sweep n) :
    visit S i s =
      if (fill S i s).forest.semi.get i < i then
        .ok (((fill S i s).bucket.get (S.parent.get i)).reverse.foldl (resolve (S.parent.get i))
          (hang (S.parent.get i) i (fill S i s)))
      else .error (.violation (.semidominatorNotAbove (S.block.get i) i
        ((fill S i s).forest.semi.get i))) :=
  rfl

structure Filled (S : Spanning n) (i : Fin n) (s : Sweep n) : Prop where
  tracks : s.forest.Tracks S (i.val + 1)
  lt : ∀ w, i ≤ w → s.forest.semi.get w < w
  least : ∀ w, i ≤ w → IsLeast {c | S.Leap c w} (s.forest.semi.get w)
  rest : ∀ w, w < i → s.forest.semi.get w = w
  waits : ∀ v k, v ∈ s.bucket.get k → i ≤ v ∧ s.forest.semi.get v = k ∧
    ∀ c : Fin n, c.val ≠ 0 → S.parent.get c = k → i < c → ¬c ≤ v
  below : ∀ v, (s.idom.get v).val ≤ v.val - 1
  settled : S.DepthFirst → ∀ v, i ≤ v → v ∉ s.bucket.get (s.forest.semi.get v) →
    S.Provisional v (s.idom.get v)

theorem Swept.lowered_fill (hS : S.Descends) (hs : Swept S (i.val + 1) s) :
    (fill S i s).forest.Lowered S i (S.preds.get i).reverse ∧
      ∀ w, i ≠ w → (fill S i s).forest.semi.get w = s.forest.semi.get w := by
  obtain ⟨hF, hsame⟩ := hs.lowered.foldl hS (S.preds.get i) fun _ hv => hv
  rw [List.append_nil] at hF
  exact ⟨hF, hsame⟩

theorem filled_of_lowered (hs : Swept S (i.val + 1) s) (hF : F.Lowered S i seen)
    (hk : F.semi.get i < i) (hleast : IsLeast {c | S.Leap c i} (F.semi.get i))
    (hsame : ∀ w, i ≠ w → F.semi.get w = s.forest.semi.get w) :
    Filled S i ⟨F, s.bucket.set (F.semi.get i) (i :: s.bucket.get (F.semi.get i))
      (F.semi.get i).isLt, s.idom⟩ where
  tracks := hF.tracks
  lt w hw := by
    rcases hw.eq_or_lt with rfl | hw
    · exact hk
    · exact (hsame w hw.ne).symm ▸ hs.lt w hw
  least w hw := by
    rcases hw.eq_or_lt with rfl | hw
    · exact hleast
    · exact hF.least w hw
  rest := hF.rest
  waits v k hv := by
    have hold : v ∈ s.bucket.get k → i ≤ v ∧ F.semi.get v = k ∧
        ∀ c : Fin n, c.val ≠ 0 → S.parent.get c = k → i < c → ¬c ≤ v := by
      intro hv
      obtain ⟨hlt, hk, hlast⟩ := hs.waits v k hv
      have hiv : i < v := hlt
      exact ⟨hiv.le, (hsame v hiv.ne).trans hk, hlast⟩
    rw [vector_get_set] at hv
    split at hv
    · rename_i hk
      rcases List.mem_cons.mp hv with rfl | hv
      · exact ⟨le_rfl, hk, fun c _ _ hc => not_le.mpr hc⟩
      · exact hold (hk ▸ hv)
    · exact hold hv
  below := hs.below
  settled hD v hv hnot := by
    rw [vector_get_set] at hnot
    have hiv : i ≠ v := by
      rintro rfl
      simp at hnot
    refine hs.settled hD v (lt_of_le_of_ne hv hiv) fun hold => hnot ?_
    rw [← hsame v hiv] at hold
    split
    · rename_i hkv
      exact List.mem_cons_of_mem _ (hkv ▸ hold)
    · exact hold

theorem Swept.le_of_leap (hS : S.Descends) (hs : Swept S (i.val + 1) s) (hc : S.Leap c i) :
    (fill S i s).forest.semi.get i ≤ c :=
  (hs.lowered_fill hS).1.le_of_leap (fun _ hv => List.mem_reverse.mpr hv) hc

theorem Swept.filled (hS : S.Descends) (hs : Swept S (i.val + 1) s)
    (hk : (fill S i s).forest.semi.get i < i) : Filled S i (fill S i s) := by
  obtain ⟨hF, hsame⟩ := hs.lowered_fill hS
  have hleast : IsLeast {c | S.Leap c i} ((fill S i s).forest.semi.get i) :=
    ⟨hF.bound.resolve_left hk.ne, fun _ hc => hs.le_of_leap hS hc⟩
  exact filled_of_lowered hs hF hk hleast hsame

theorem Filled.provisional (hD : S.DepthFirst) (hs : Filled S i s) (hi : i.val ≠ 0)
    (hp : S.parent.get i = p) (hv : v ∈ s.bucket.get p)
    (h : Resolved s.forest S i p v d) : S.Provisional v d := by
  obtain ⟨hiv, hsv, hlast⟩ := hs.waits v p hv
  have hpi : p < i := hp ▸ hD.descends i hi
  have hsemi : ∀ w, i ≤ w → S.IsSemidominator (s.forest.semi.get w) w :=
    fun w hw => hD.isSemidominator_iff.mpr (hs.least w hw)
  have hpv : S.IsSemidominator p v := hsv ▸ hsemi v hiv
  have habove : Above S.up p v :=
    Spanning.DepthFirst.Detour.above hD hpv.1 (hpi.trans_le hiv)
  obtain ⟨u, hu, rfl⟩ := h
  -- `eval` has looked at all that is above `v` and beyond `p`
  have hlow : ∀ y c, p < y → Above S.up y v → S.Detour c y → s.forest.semi.get u ≤ c := by
    intro y c hpy hy hc
    have hiy := hD.le_of_above hi hp hiv habove hlast hy hpy
    exact (hu.least y hy hiy).trans ((hsemi y hiy).2 hc)
  rw [hsv]
  split
  · rename_i hlt
    exact .shared p _ hpv hu.above (hpi.trans_le hu.le) (hsemi u hu.le) hlt hlow
  · rename_i hge
    exact .own hpv fun y c hpy hy hc => (not_lt.mp hge).trans (hlow y c hpy hy hc)

section Drain

variable (hS : S.Descends) (hs : Filled S i s) (hi : i.val ≠ 0) (hp : S.parent.get i = p)

include hS hs hi hp

theorem Filled.foldl_hang (vs : List (Fin n)) (hvs : ∀ v ∈ vs, v ∈ s.bucket.get p) :
    (vs.foldl (resolve p) (hang p i s)).forest.Tracks S i.val ∧
      (vs.foldl (resolve p) (hang p i s)).forest.semi = s.forest.semi ∧
      (vs.foldl (resolve p) (hang p i s)).bucket = s.bucket.set p [] p.isLt ∧
      ∀ v, (v ∈ vs ∧
          Resolved s.forest S i p v ((vs.foldl (resolve p) (hang p i s)).idom.get v)) ∨
        (v ∉ vs ∧ (vs.foldl (resolve p) (hang p i s)).idom.get v = s.idom.get v) := by
  obtain ⟨htracks, hsemi, hbucket, hidom⟩ := foldl_resolve (p := p) (s := hang p i s) hS
    (hp ▸ hs.tracks.link hS hi) vs fun v hv => (hs.waits v p (hvs v hv)).1
  exact ⟨htracks, hsemi, hbucket, fun v => (hidom v).imp_left fun h => ⟨h.1, h.2.congr rfl⟩⟩

theorem Filled.drain :
    Swept S i.val ((s.bucket.get p).reverse.foldl (resolve p) (hang p i s)) := by
  have hpi : p < i := hp ▸ hS i hi
  obtain ⟨htracks, hsemi, hbucket, hidom⟩ := hs.foldl_hang hS hi hp (s.bucket.get p).reverse
    fun _ hv => List.mem_reverse.mp hv
  refine ⟨htracks, fun w hw => hsemi ▸ hs.lt w hw, fun w hw => hsemi ▸ hs.least w hw,
    fun w hw => hsemi ▸ hs.rest w hw, ?_, ?_, ?_⟩
  · intro v k hv
    rw [hbucket, vector_get_set] at hv
    split at hv
    · cases hv
    · rename_i hpk
      obtain ⟨hiv, hsv, hlast⟩ := hs.waits v k hv
      refine ⟨hiv, hsemi ▸ hsv, fun c hc hck hic => ?_⟩
      rcases Nat.eq_or_lt_of_le hic with hic | hic
      · have hci : i = c := Fin.ext hic
        exact absurd (hp.symm.trans (hci ▸ hck)) hpk
      · exact hlast c hc hck hic
  · intro v
    rcases hidom v with ⟨hv, hd⟩ | ⟨-, hsame⟩
    · have hiv := (hs.waits v p (List.mem_reverse.mp hv)).1
      exact Nat.le_sub_one_of_lt (hd.lt hS hpi hiv)
    · exact hsame ▸ hs.below v
  · intro hD v hv hnot
    rcases hidom v with ⟨hv, hd⟩ | ⟨hwait, hsame⟩
    · exact hs.provisional hD hi hp (List.mem_reverse.mp hv) hd
    · rw [List.mem_reverse] at hwait
      rw [hsame]
      refine hs.settled hD v hv fun hold => hnot ?_
      rw [hsemi, hbucket, vector_get_set]
      split
      · rename_i hpv
        exact absurd (hpv ▸ hold) hwait
      · exact hold

end Drain

theorem Swept.visit (hS : S.Descends) (hs : Swept S (i.val + 1) s) (hi : i.val ≠ 0) :
    (visit S i s = .error (.violation (.semidominatorNotAbove (S.block.get i) i i)) ∧
      ∀ c, S.Leap c i → i ≤ c) ∨
    ∃ s', visit S i s = .ok s' ∧ Swept S i.val s' := by
  rw [visit_eq]
  by_cases hk : (fill S i s).forest.semi.get i < i
  · rw [if_pos hk]
    exact .inr ⟨_, rfl, (hs.filled hS hk).drain hS hi rfl⟩
  · have heq : (fill S i s).forest.semi.get i = i :=
      le_antisymm (hs.lowered_fill hS).1.le (not_lt.mp hk)
    rw [if_neg hk, heq]
    exact .inl ⟨rfl, fun c hc => heq.ge.trans (hs.le_of_leap hS hc)⟩

theorem Swept.down (hS : S.Descends) (j : Nat) (hj : j < n) (hs : Swept S (j + 1) s) :
    (∃ i : Fin n, i.val ≠ 0 ∧ (∀ c, S.Leap c i → i ≤ c) ∧
      down S j hj s = .error (.violation (.semidominatorNotAbove (S.block.get i) i i))) ∨
    ∃ s', down S j hj s = .ok s' ∧ Swept S 1 s' := by
  induction j generalizing s with
  | zero => exact .inr ⟨s, rfl, hs⟩
  | succ j ih =>
      simp only [Sweep.down]
      rcases hs.visit (i := ⟨j + 1, hj⟩) hS (Nat.succ_ne_zero j) with
        ⟨hvisit, hleast⟩ | ⟨s', hvisit, hs'⟩
      · rw [hvisit]
        exact .inl ⟨_, Nat.succ_ne_zero j, hleast, rfl⟩
      · rw [hvisit]
        exact ih (Nat.lt_of_succ_lt hj) hs'

end Sweep

end ControlFlow

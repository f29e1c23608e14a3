import ControlFlow.Proofs.Walk
import Mathlib.Data.Set.Insert

namespace ControlFlow

variable {g : View} {b root : BlockId} {bs cs vs ws fs hs : List BlockId} {as stops : List Stop}
  {S : Set BlockId} {s : IdSet} {q : BlockId → Bool}

/-- Going depth first through a list of blocks, where those of the set were visited before, visits
the blocks of the last list in its order. -/
inductive View.Visits (g : View) : Set BlockId → List BlockId → List BlockId → Prop
  | done (S : Set BlockId) : Visits g S [] []
  | skip {S : Set BlockId} {b : BlockId} {bs vs : List BlockId} (hb : b ∈ S)
      (rest : Visits g S bs vs) : Visits g S (b :: bs) vs
  | enter {S : Set BlockId} {b : BlockId} {bs vs ws : List BlockId} (hb : b ∉ S)
      (below : Visits g (insert b S) (g.succs b) vs)
      (rest : Visits g (insert b S ∪ {c | c ∈ vs}) bs ws) : Visits g S (b :: bs) (b :: (vs ++ ws))

/-- Making the stops of a list, where the blocks of the set were entered before, enters the blocks
of the first result and leaves those of the second, each in its order. A block that is entered is
left once its successors are done. -/
inductive View.Traverses (g : View) : Set BlockId → List Stop → List BlockId → List BlockId → Prop
  | done (S : Set BlockId) : Traverses g S [] [] []
  | leave {S : Set BlockId} {b : BlockId} {stops : List Stop} {vs fs : List BlockId}
      (rest : Traverses g S stops vs fs) : Traverses g S (.leave b :: stops) vs (b :: fs)
  | skip {S : Set BlockId} {b : BlockId} {stops : List Stop} {vs fs : List BlockId} (hb : b ∈ S)
      (rest : Traverses g S stops vs fs) : Traverses g S (.enter b :: stops) vs fs
  | enter {S : Set BlockId} {b : BlockId} {stops : List Stop} {vs ws fs hs : List BlockId}
      (hb : b ∉ S) (below : Traverses g (insert b S) ((g.succs b).map .enter) vs fs)
      (rest : Traverses g (insert b S ∪ {c | c ∈ vs}) stops ws hs) :
      Traverses g S (.enter b :: stops) (b :: (vs ++ ws)) (fs ++ b :: hs)

theorem insert_union_union :
    insert b S ∪ {c | c ∈ vs} ∪ {c | c ∈ ws} = S ∪ {c | c ∈ b :: (vs ++ ws)} := by
  ext c
  simp only [Set.mem_union, Set.mem_insert_iff, Set.mem_ofPred_eq, List.mem_cons, List.mem_append]
  tauto

namespace View.Traverses

theorem unique (h : g.Traverses S stops vs fs) (h' : g.Traverses S stops ws hs) :
    vs = ws ∧ fs = hs := by
  induction h generalizing ws hs with
  | done S =>
      cases h'
      exact ⟨rfl, rfl⟩
  | leave _ ih =>
      cases h' with
      | leave hrest =>
          obtain ⟨rfl, rfl⟩ := ih hrest
          exact ⟨rfl, rfl⟩
  | skip hb _ ih =>
      cases h' with
      | skip _ hrest => exact ih hrest
      | enter hb' _ _ => exact absurd hb hb'
  | enter hb _ _ ihbelow ihrest =>
      cases h' with
      | skip hb' _ => exact absurd hb' hb
      | enter _ hbelow hrest =>
          obtain ⟨rfl, rfl⟩ := ihbelow hbelow
          obtain ⟨rfl, rfl⟩ := ihrest hrest
          exact ⟨rfl, rfl⟩

theorem visits (h : g.Traverses S (bs.map .enter) vs fs) : g.Visits S bs vs := by
  generalize hstops : bs.map Stop.enter = stops at h
  induction h generalizing bs with
  | done S =>
      rw [List.map_eq_nil_iff.mp hstops]
      exact .done S
  | leave _ _ =>
      obtain ⟨c, _, -, hc, -⟩ := List.map_eq_cons_iff.mp hstops
      cases hc
  | skip hb _ ih =>
      obtain ⟨c, cs, rfl, hc, hcs⟩ := List.map_eq_cons_iff.mp hstops
      cases hc
      exact .skip hb (ih hcs)
  | enter hb _ _ ihbelow ihrest =>
      obtain ⟨c, cs, rfl, hc, hcs⟩ := List.map_eq_cons_iff.mp hstops
      cases hc
      exact .enter hb (ihbelow rfl) (ihrest hcs)

theorem split (h : g.Traverses S (as ++ stops) vs fs) :
    ∃ vs' ws fs' hs, vs = vs' ++ ws ∧ fs = fs' ++ hs ∧ g.Traverses S as vs' fs' ∧
      g.Traverses (S ∪ {c | c ∈ vs'}) stops ws hs := by
  induction as generalizing S vs fs with
  | nil => exact ⟨[], vs, [], fs, rfl, rfl, .done S, by simpa using h⟩
  | cons a as ih =>
      cases h with
      | leave hrest =>
          obtain ⟨vs', ws, fs', hs, rfl, rfl, hfirst, hthen⟩ := ih hrest
          exact ⟨vs', ws, _, hs, rfl, rfl, .leave hfirst, hthen⟩
      | skip hb hrest =>
          obtain ⟨vs', ws, fs', hs, rfl, rfl, hfirst, hthen⟩ := ih hrest
          exact ⟨vs', ws, fs', hs, rfl, rfl, .skip hb hfirst, hthen⟩
      | @enter _ b _ us _ es _ hb hbelow hrest =>
          obtain ⟨vs', ws, fs', hs, rfl, rfl, hfirst, hthen⟩ := ih hrest
          refine ⟨b :: (us ++ vs'), ws, es ++ b :: fs', hs, by simp, by simp,
            .enter hb hbelow hfirst, ?_⟩
          rwa [← insert_union_union]

theorem of_filter (hq : ∀ b ∈ bs, q b = false → b ∈ S)
    (h : g.Traverses S ((bs.filter q).map .enter) vs fs) :
    g.Traverses S (bs.map .enter) vs fs := by
  induction bs generalizing S vs fs with
  | nil => exact h
  | cons b bs ih =>
      obtain ⟨hb, hbs⟩ := List.forall_mem_cons.mp hq
      cases hqb : q b with
      | false =>
          rw [List.filter_cons_of_neg (by simp [hqb])] at h
          exact .skip (hb hqb) (ih hbs h)
      | true =>
          rw [List.filter_cons_of_pos hqb] at h
          cases h with
          | skip hb hrest => exact .skip hb (ih hbs hrest)
          | enter hb hbelow hrest =>
              exact .enter hb hbelow (ih (fun c hc hqc => .inl (.inr (hbs c hc hqc))) hrest)

theorem of_pushed (hb : b ∉ S) (hq : ∀ c ∈ g.succs b, q c = false → c ∈ insert b S)
    (h : g.Traverses (insert b S) (((g.succs b).filter q).map .enter ++ .leave b :: stops) vs fs) :
    g.Traverses S (.enter b :: stops) (b :: vs) fs := by
  obtain ⟨vs', ws, fs', hs, rfl, rfl, hbelow, hthen⟩ := h.split
  cases hthen with
  | leave hrest => exact .enter hb (of_filter hq hbelow) hrest

end View.Traverses

namespace View.Visits

theorem exists_traverses (h : g.Visits S bs vs) : ∃ fs, g.Traverses S (bs.map .enter) vs fs := by
  induction h with
  | done S => exact ⟨[], .done S⟩
  | skip hb _ ih =>
      obtain ⟨fs, h⟩ := ih
      exact ⟨fs, .skip hb h⟩
  | enter hb _ _ ihbelow ihrest =>
      obtain ⟨fs, hbelow⟩ := ihbelow
      obtain ⟨hs, hrest⟩ := ihrest
      exact ⟨_, .enter hb hbelow hrest⟩

theorem unique (h : g.Visits S bs vs) (h' : g.Visits S bs ws) : vs = ws := by
  obtain ⟨fs, h⟩ := h.exists_traverses
  obtain ⟨hs, h'⟩ := h'.exists_traverses
  exact (h.unique h').1

theorem split (h : g.Visits S (cs ++ bs) vs) :
    ∃ us ws, vs = us ++ ws ∧ g.Visits S cs us ∧ g.Visits (S ∪ {c | c ∈ us}) bs ws := by
  obtain ⟨fs, h⟩ := h.exists_traverses
  rw [List.map_append] at h
  obtain ⟨us, ws, _, _, rfl, -, hfirst, hthen⟩ := h.split
  exact ⟨us, ws, rfl, hfirst.visits, hthen.visits⟩

theorem append (h : g.Visits S cs vs) (h' : g.Visits (S ∪ {c | c ∈ vs}) bs ws) :
    g.Visits S (cs ++ bs) (vs ++ ws) := by
  induction h with
  | done S => simpa using h'
  | skip hb _ ih => exact .skip hb (ih h')
  | enter hb hbelow _ _ ih =>
      rw [← insert_union_union] at h'
      simpa using Visits.enter hb hbelow (ih h')

theorem flatMap {f : BlockId → List BlockId}
    (hf : ∀ b ∈ bs, ∀ S, (∀ c ∈ f b, c ∉ S) → g.Visits S [b] (f b))
    (hapart : bs.Pairwise fun a b => (f a).Disjoint (f b))
    (hnew : ∀ b ∈ bs, ∀ c ∈ f b, c ∉ S) : g.Visits S bs (bs.flatMap f) := by
  induction bs generalizing S with
  | nil => exact .done S
  | cons b bs ih =>
      obtain ⟨hfb, hf⟩ := List.forall_mem_cons.mp hf
      obtain ⟨hapartb, hapart⟩ := List.pairwise_cons.mp hapart
      obtain ⟨hnewb, hnew⟩ := List.forall_mem_cons.mp hnew
      refine (hfb S hnewb).append (ih hf hapart fun a ha c hc => ?_)
      rintro (hcS | hcb)
      · exact hnew a ha c hc hcS
      · exact hapartb a ha hcb hc

theorem of_filter (hq : ∀ b ∈ bs, q b = false → b ∈ S) (h : g.Visits S (bs.filter q) vs) :
    g.Visits S bs vs := by
  obtain ⟨fs, h⟩ := h.exists_traverses
  exact (h.of_filter hq).visits

end View.Visits

def IdSet.members (s : IdSet) : Set BlockId :=
  {b | s.has b = true}

theorem IdSet.members_put (h : b < s.capacity) :
    (s.put b).members = Insert.insert b s.members := by
  ext c
  simp only [members, Set.mem_ofPred_eq, has_put h, Bool.or_eq_true, decide_eq_true_eq,
    Set.mem_insert_iff]
  rw [or_comm, eq_comm]

theorem IdSet.members_empty (n : Nat) : (empty n).members = ∅ := by
  ext c
  simp [members, has_empty]

namespace Walk

theorem visits_enter {more : List BlockId} (hb : s.has b = false) (hlt : b < s.capacity)
    (hmore : (s.put b).unseen (g.succs b) = .ok more)
    (hsuccs : ∀ c ∈ g.succs b, c < s.capacity)
    (h : g.Visits (s.put b).members (more ++ bs) vs) : g.Visits s.members (b :: bs) (b :: vs) := by
  have hfilter := IdSet.unseen_eq (s := s.put b) hsuccs
  rw [hmore] at hfilter
  cases hfilter
  obtain ⟨us, ws, rfl, hus, hws⟩ := h.split
  have hbelow : g.Visits (s.put b).members (g.succs b) us := by
    refine View.Visits.of_filter (fun c _ hc => ?_) hus
    simpa [IdSet.members] using hc
  rw [IdSet.members_put hlt] at hbelow hws
  exact .enter (by simp [IdSet.members, hb]) hbelow hws

theorem Inside.visits_next (h : Inside g root bs s) (hrange : g.InRange root) :
    (Walk.next g bs s = .ok none ∧ g.Visits s.members bs []) ∨
      ∃ b w, Walk.next g bs s = .ok (some (b, w)) ∧ Inside g root w.pending w.seen ∧
        ∀ vs, g.Visits w.seen.members w.pending vs → g.Visits s.members bs (b :: vs) := by
  induction bs with
  | nil => exact .inl ⟨rfl, .done _⟩
  | cons b bs ih =>
      obtain ⟨hlt, hreach⟩ := h.reaches b List.mem_cons_self
      rw [Walk.next, if_pos (h.capacity ▸ hlt)]
      cases hseen : s.has b with
      | true =>
          rcases ih (h.skip hseen) with ⟨hnone, hvisits⟩ | ⟨c, w, hnext, hw, hvisits⟩
          · exact .inl ⟨hnone, .skip hseen hvisits⟩
          · exact .inr ⟨c, w, hnext, hw, fun vs hvs => .skip hseen (hvisits vs hvs)⟩
      | false =>
          obtain ⟨more, hmore, hinside⟩ := h.visit hrange
          rw [if_neg Bool.false_ne_true, hmore]
          refine .inr ⟨b, _, rfl, hinside, fun vs hvs => ?_⟩
          exact visits_enter hseen (h.capacity ▸ hlt) hmore
            (fun c hc => h.capacity ▸ hrange b hreach c hc) hvs

theorem Inside.exists_visits (w : Walk) (h : Inside g root w.pending w.seen)
    (hrange : g.InRange root) :
    ∃ vs, w.rest g = .ok vs ∧ g.Visits w.seen.members w.pending vs := by
  rw [rest_eq]
  rcases h.visits_next hrange with ⟨hnone, hvisits⟩ | ⟨b, w', hnext, hw, hvisits⟩
  · rw [hnone]
    exact ⟨[], rfl, hvisits⟩
  · have hroom := room_next hnext
    obtain ⟨vs, hvs, hrest⟩ := Inside.exists_visits w' hw hrange
    rw [hnext]
    dsimp only
    rw [hvs]
    exact ⟨b :: vs, rfl, hvisits vs hrest⟩
termination_by w.seen.room

end Walk

theorem View.exists_visits (hrange : g.InRange root) (hroot : root < g.bound) :
    ∃ vs, g.preorder root = .ok vs ∧ g.Visits ∅ [root] vs := by
  obtain ⟨vs, hvs, hvisits⟩ := Walk.inside_start.exists_visits _ hrange
  refine ⟨vs, hvs, ?_⟩
  rwa [Walk.start, if_pos hroot, IdSet.members_empty] at hvisits

end ControlFlow

import ControlFlow.Proofs.Flowgraph.Consistent

namespace ControlFlow

open Flowgraph

variable {π α : Type} {b u v : BlockId} {bs : List BlockId} {flow : Flow} {g : Flowgraph π}

namespace Flowgraph

theorem live_edges {edges : EdgeIndex} {c : BlockId} :
    Flowgraph.Live { g with edges } c ↔ g.Live c :=
  Iff.rfl

end Flowgraph

namespace Edit

theorem ext {e e' : Edit π α} (h : ∀ g, e.exec g = e'.exec g) : e = e' :=
  funext h

theorem requireAll_bind_congr {e e' : Edit π α}
    (h : ∀ g, (∀ b ∈ bs, g.Live b) → e.exec g = e'.exec g) :
    (requireAll bs >>= fun _ => e) = requireAll bs >>= fun _ => e' := by
  refine ext fun g => ?_
  rw [exec_bind, exec_bind, exec_requireAll]
  cases hm : g.firstMissing? bs with
  | none => exact h g (firstMissing?_eq_none_iff.mp hm)
  | some b => rfl

namespace Stepwise

def update (b : BlockId) (f : Block π → Block π) : Edit π Unit := do
  requireAll [b]
  modify (·.update b f)

def link (u v : BlockId) (flow : Flow) : Edit π Unit := do
  requireAll [u, v]
  if (← get).edges.contains u v then return ()
  else do
    update u fun x => { x with succs := x.succs.push v }
    update v fun x => { x with preds := x.preds.push u }
    modify fun g => invalidate { g with edges := g.edges.setFlow u v flow }

def addBlock (preds : List BlockId) : Edit π BlockId := do
  requireAll preds
  let b := (← get).blocks.size
  modify (·.append)
  preds.forM fun p => link p b .unconditional
  return b

def connectTo (b : BlockId) (targets : List BlockId) : Edit π Unit := do
  requireAll (b :: targets)
  targets.forM fun t => link b t .unconditional

def connectFrom (b : BlockId) (sources : List BlockId) : Edit π Unit := do
  requireAll (b :: sources)
  sources.forM fun s => link s b .unconditional

def setArm (arm : Arm) (b target : BlockId) : Edit π Unit := do
  requireAll [target, b]
  let x ← requireLive b
  modify (·.demote b (x.target? arm) target)
  link b target arm.flow
  modify fun g => { g with edges := g.edges.setFlow b target arm.flow }
  update b (·.aim arm target)
  modify (·.invalidate)

def addArm (arm : Arm) (b : BlockId) : Edit π BlockId := do
  requireAll [b]
  let target ← addBlock []
  setArm arm b target
  return target

def designate (s : Sentinel) (b : BlockId) : Edit π Unit := do
  requireAll [b]
  match ((← get).sentinel? s).filter (· != b) with
  | some c => throw (.violation (s.taken c b))
  | none => do
      update b (·.mark s)
      modify (·.name s b)
      modify (·.invalidate)

def addSentinels : Edit π (BlockId × BlockId) := do
  let g ← get
  match g.entry <|> g.exit with
  | some b => throw (.violation (.sentinelExists b))
  | none => do
      let entry ← addBlock []
      let exit ← addBlock []
      designate .entry entry
      designate .exit exit
      return (entry, exit)

def redirectSuccessor (b old new : BlockId) : Edit π Unit := do
  requireAll [new]
  if old = new then return ()
  else do
    let x ← requireLive b
    if x.succs.contains old then do
      update b (·.redirectSucc old new)
      modify fun g => { g with edges := reindex g.edges b old b new (g.flowOf b old) }
      modify (·.update old (·.dropPred b))
      update new (·.addPred b)
      modify (·.invalidate)
    else return ()

def redirectPredecessor (b old new : BlockId) : Edit π Unit := do
  requireAll [new]
  if old = new then return ()
  else do
    let x ← requireLive b
    if x.preds.contains old then do
      let flow := (← get).flowOf old b
      update b (·.redirectPred old new)
      modify fun g => { g with edges := reindex g.edges old b new b flow }
      modify (·.update old (·.dropSucc b))
      update new (adopt b flow)
      modify (·.invalidate)
    else return ()

def bypass (b : BlockId) : Edit π Bool := do
  let x ← requireLive b
  match x.bypassTarget? b with
  | none => return false
  | some s => do
      let sources := x.preds.toList
      if ← sources.anyM (isTestInto s) then return false
      else do
        sources.forM fun p => redirectSuccessor p b s
        removeBlock b
        return true

def bypassAll : Edit π Nat := do
  let candidates := (← get).ids
  candidates.foldlM
    (fun n b => do
      let gone ← bypass b
      return if gone then n + 1 else n)
    0

theorem exec_update {f : Block π → Block π} (hb : g.Live b) :
    (update b f).exec g = (.ok (), g.update b f) :=
  exec_bind_of_ok (exec_requireAll_of_live (by simpa using hb))

theorem exec_link (hu : g.Live u) (hv : g.Live v) :
    (link u v flow).exec g = (.ok (), g.link u v flow) := by
  rw [link, exec_bind_of_ok (exec_requireAll_of_live (by simp [hu, hv])),
    exec_bind_of_ok (exec_get g), Flowgraph.link]
  split
  · rfl
  · rw [exec_bind_of_ok (exec_update hu), exec_bind_of_ok (exec_update (live_update.mpr hv))]
    rfl

theorem exec_forM_link (s t : BlockId → BlockId) (h : ∀ b ∈ bs, g.Live (s b) ∧ g.Live (t b)) :
    (bs.forM fun b => link (s b) (t b) flow).exec g =
      (.ok (), bs.foldl (fun g b => g.link (s b) (t b) flow) g) := by
  induction bs generalizing g with
  | nil => rfl
  | cons b bs ih =>
      obtain ⟨hs, ht⟩ := h b List.mem_cons_self
      refine (exec_bind_of_ok (exec_link hs ht)).trans (ih fun c hc => ?_)
      rw [live_link, live_link]
      exact h c (List.mem_cons_of_mem _ hc)

theorem addBlock_eq : addBlock (π := π) = Edit.addBlock := by
  funext preds
  refine requireAll_bind_congr fun g hlive => ?_
  have hlink : (preds.forM fun p => link p g.blocks.size .unconditional).exec g.append = _ :=
    exec_forM_link id (fun _ => g.blocks.size) fun p hp =>
      ⟨live_append.mpr (.inr (hlive p hp)), live_append.mpr (.inl rfl)⟩
  rw [exec_bind_of_ok (exec_get g), exec_bind_of_ok (exec_modify _ g)]
  exact exec_bind_of_ok hlink

theorem connectTo_eq : connectTo (π := π) = Edit.connectTo := by
  funext b targets
  refine requireAll_bind_congr fun g hlive => exec_forM_link (fun _ => b) id fun t ht => ?_
  exact ⟨hlive b List.mem_cons_self, hlive t (List.mem_cons_of_mem _ ht)⟩

theorem connectFrom_eq : connectFrom (π := π) = Edit.connectFrom := by
  funext b sources
  refine requireAll_bind_congr fun g hlive => exec_forM_link id (fun _ => b) fun s hs => ?_
  exact ⟨hlive s (List.mem_cons_of_mem _ hs), hlive b List.mem_cons_self⟩

theorem setArm_eq : setArm (π := π) = Edit.setArm := by
  funext arm b target
  refine requireAll_bind_congr fun g hlive => ?_
  obtain ⟨htarget, x, hx⟩ : g.Live target ∧ g.Live b := by simpa using hlive
  have hb : (g.demote b (x.target? arm) target).Live b :=
    (live_demote _).mpr ⟨x, hx⟩
  rw [exec_bind_of_ok (exec_requireLive_of_some hx), exec_bind_of_ok (exec_modify _ g),
    exec_bind_of_ok (exec_link hb ((live_demote _).mpr htarget)), exec_bind_of_ok (exec_modify _ _),
    exec_bind_of_ok (exec_update (live_edges.mpr (live_link.mpr hb))), exec_modify, exec_modify,
    aim, hx]
  rfl

theorem addArm_eq : addArm (π := π) = Edit.addArm := by
  funext arm b
  rw [addArm, Edit.addArm, addBlock_eq, setArm_eq]

theorem designate_eq : designate (π := π) = Edit.designate := by
  funext s b
  refine requireAll_bind_congr fun g hlive => ?_
  rw [exec_bind_of_ok (exec_get g), exec_bind_of_ok (exec_get g)]
  cases hc : (g.sentinel? s).filter (· != b) with
  | some c => rfl
  | none =>
      refine (exec_bind_of_ok (exec_update (hlive b List.mem_cons_self))).trans ?_
      -- the block is marked before or after the graph names it
      cases s <;> rfl

theorem addSentinels_eq : addSentinels (π := π) = Edit.addSentinels := by
  rw [addSentinels, addBlock_eq, designate_eq]
  rfl

theorem redirect_congr {new old : BlockId} {q : Block π → Bool} {e e' : Edit π Unit}
    (h : ∀ g, g.Live new → g.Live b → e.exec g = e'.exec g) :
    (requireAll [new] >>= fun _ => if old = new then pure () else
      requireLive b >>= fun x => if q x then e else pure () : Edit π Unit) =
      (requireAll [new] >>= fun _ => if old = new then pure () else
        requireLive b >>= fun x => if q x then e' else pure () : Edit π Unit) := by
  refine requireAll_bind_congr fun g hlive => ?_
  split
  · rfl
  · rw [exec_bind, exec_bind, exec_requireLive]
    cases hx : g.block? b with
    | none => rfl
    | some x =>
        dsimp only
        split
        · exact h g (hlive new List.mem_cons_self) ⟨x, hx⟩
        · rfl

theorem redirectSuccessor_eq : redirectSuccessor (π := π) = Edit.redirectSuccessor := by
  funext b old new
  refine redirect_congr fun g hnew hb => ?_
  rw [exec_bind_of_ok (exec_update hb), exec_bind_of_ok (exec_modify _ _),
    exec_bind_of_ok (exec_modify _ _), exec_bind_of_ok (exec_update ?_)]
  · rfl
  · exact live_update.mpr (live_edges.mpr (live_update.mpr hnew))

theorem redirectPredecessor_eq : redirectPredecessor (π := π) = Edit.redirectPredecessor := by
  funext b old new
  refine redirect_congr fun g hnew hb => ?_
  rw [exec_bind_of_ok (exec_get g), exec_bind_of_ok (exec_update hb),
    exec_bind_of_ok (exec_modify _ _), exec_bind_of_ok (exec_modify _ _),
    exec_bind_of_ok (exec_update ?_)]
  · rfl
  · exact live_update.mpr (live_edges.mpr (live_update.mpr hnew))

theorem bypass_eq : bypass (π := π) = Edit.bypass := by
  funext b
  rw [bypass, redirectSuccessor_eq]
  rfl

theorem bypassAll_eq : bypassAll (π := π) = Edit.bypassAll := by
  rw [bypassAll, bypass_eq]
  rfl

end Stepwise

end Edit

end ControlFlow

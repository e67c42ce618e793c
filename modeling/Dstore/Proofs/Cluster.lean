import Dstore.Cluster

/-!
# An epoch determines the placement and the voters

What placement and quorums are computed from is a view's `config`. A change that leaves the epoch
alone leaves the `config` alone, whichever of the program's changes it is.
-/

namespace Dstore.Cluster

variable {v nv u u' : View} {p p' : Pending} {c : Change} {bump : Bool} {now : ℤ}
  {fn : View → Pending → Except Err (View × Pending)}

/-- The part of a transition that the nodes act on. -/
structure Target where
  id : ℕ
  frozen : Bool
  participants : List NodeID
  round : ℕ
  replicas : ℕ
  nodes : List (NodeID × ℕ × String)
  deriving DecidableEq, Repr

/-- The part of a view that the nodes act on. -/
structure Config where
  replicas : ℕ
  voters : List Voter
  nodes : List (NodeID × ℕ × String)
  pending : Option Target
  deriving DecidableEq, Repr

/-- The target of a transition. -/
def Pending.target (p : Pending) : Target :=
  ⟨p.id, p.frozen, p.participants, p.round, p.replicas, placed p.nodes⟩

/-- The configuration of a view. -/
def View.config (v : View) : Config :=
  ⟨v.replicas, v.voters, placed v.nodes, v.pending.map Pending.target⟩

/-- A change of addresses, tokens or incarnations places nothing anew. -/
theorem placed_updateNodes (id : NodeID) (f : Node → Node) (nodes : List Node)
    (hf : ∀ nd, (f nd).id = nd.id ∧ (f nd).weight = nd.weight ∧ (f nd).zone = nd.zone) :
    placed (updateNodes id f nodes) = placed nodes := by
  simp only [placed, updateNodes, List.map_map]
  refine List.map_congr_left fun nd _ => ?_
  simp only [Function.comp_apply]
  split_ifs
  · obtain ⟨h1, h2, h3⟩ := hf nd
    rw [h1, h2, h3]
  · rfl

/-- A target set's builder edits the ramps and the deferred voters of the view, and the nodes and
the replica count of the target set. -/
def Builds (fn : View → Pending → Except Err (View × Pending)) : Prop :=
  ∀ v p v' p', fn v p = .ok (v', p') →
    v' = { v with ramps := v'.ramps, deferredVoters := v'.deferredVoters } ∧
    p' = { p with nodes := p'.nodes, replicas := p'.replicas }

theorem nodeChangeFn_builds (op : NodeOp) (id : NodeID) : Builds (nodeChangeFn op id) := by
  intro v p v' p' h
  cases op <;> simp only [nodeChangeFn] at h <;> split at h <;> cases h <;> exact ⟨rfl, rfl⟩

theorem rampFn_builds (id : NodeID) (next : ℕ) : Builds (rampFn id next) := by
  intro v p v' p' h
  cases h
  exact ⟨rfl, rfl⟩

theorem replicasFn_builds (n : ℕ) : Builds (replicasFn n) := by
  intro v p v' p' h
  unfold replicasFn at h
  split_ifs at h
  cases h
  exact ⟨rfl, rfl⟩

theorem joinFn_builds (r : JoinRequest) : Builds (joinFn r) := by
  intro v p v' p' h
  unfold joinFn at h
  split_ifs at h <;> cases h <;> exact ⟨rfl, rfl⟩

/-- A transition is proposed only where none is in progress. -/
theorem proposeTransition_ok (h : proposeTransition now fn v = .ok (nv, bump)) :
    v.pending = none ∧ v.voterSync ≠ .pending ∧ bump = true ∧ ∃ v' p,
      fn v { nodes := v.nodes, replicas := v.replicas, since := now } = .ok (v', p) ∧
        nv = { v' with pending := some { p with id := v'.epoch + 1 } } := by
  unfold proposeTransition at h
  split_ifs at h with hp hs
  split at h
  · cases h
  · rename_i v' p hfn
    split at h <;> cases h
    exact ⟨by simpa using hp, hs, rfl, v', p, hfn, rfl⟩

/-- A change that does not bump the epoch leaves the configuration alone. -/
def Keeps (v nv : View) (bump : Bool) : Prop :=
  nv.incarnation = v.incarnation ∧ nv.epoch = v.epoch ∧ (bump = false → nv.config = v.config)

theorem keeps_proposeTransition (hb : Builds fn)
    (h : proposeTransition now fn v = .ok (nv, bump)) : Keeps v nv bump := by
  obtain ⟨-, -, rfl, v', p, hfn, rfl⟩ := proposeTransition_ok h
  rw [(hb _ _ _ _ hfn).1]
  exact ⟨rfl, rfl, by simp⟩

/-- An acknowledgement or a report keeps the configuration. -/
theorem keeps_casPending {id : ℕ} {fn : Pending → Pending}
    (h : casPending id fn v = .ok (nv, bump)) (hf : ∀ p, (fn p).target = p.target) :
    Keeps v nv bump := by
  unfold casPending at h
  split at h
  · cases h
  · rename_i p hp
    split_ifs at h
    cases h
    exact ⟨rfl, rfl, fun _ => by simp [View.config, hp, hf]⟩

/-- So does a node's own entry. -/
theorem keeps_updateSelfEntry {id : NodeID} {addrs : List String} {writable : Bool}
    (h : updateSelfEntry id addrs writable v = .ok (nv, bump)) : Keeps v nv bump := by
  simp only [updateSelfEntry] at h
  split_ifs at h
  cases h
  have hplaced : ∀ nodes, placed (updateNodes id
      (fun nd => { nd with addrs := addrs, writable := writable }) nodes) = placed nodes :=
    fun nodes => placed_updateNodes _ _ _ fun _ => ⟨rfl, rfl, rfl⟩
  refine ⟨rfl, rfl, fun _ => ?_⟩
  simp only [View.config, hplaced, Option.map_map]
  congr 2
  funext p
  simp [Pending.target, hplaced]

/-- Every change of the program keeps the coordinates it does not ask to raise. -/
theorem apply_keeps (h : c.apply v = .ok (nv, bump)) : Keeps v nv bump := by
  cases c with
  | updateSelfEntry id addrs writable => exact keeps_updateSelfEntry h
  | nodeChange op id now => exact keeps_proposeTransition (nodeChangeFn_builds op id) h
  | ramp id next now => exact keeps_proposeTransition (rampFn_builds id next) h
  | join r now => exact keeps_proposeTransition (joinFn_builds r) h
  | replicas n now => exact keeps_proposeTransition (replicasFn_builds n) h
  | primaryDone node id => exact keeps_casPending h fun _ => rfl
  | done node id => exact keeps_casPending h fun _ => rfl
  | ack node id =>
    simp only [Change.apply, Cluster.ack] at h
    split at h
    · cases h
    · rename_i p hp
      split_ifs at h
      cases h
      exact ⟨rfl, rfl, fun _ => by simp [View.config, hp, Pending.target]⟩
  | freeze id now =>
    simp only [Change.apply, Cluster.freeze] at h
    split at h
    · cases h
    · split_ifs at h
      cases h
      exact ⟨rfl, rfl, by simp⟩
  | refreeze force now =>
    simp only [Change.apply, Cluster.refreeze] at h
    split at h
    · cases h
    · split_ifs at h
      cases h
      exact ⟨rfl, rfl, by simp⟩
  | commit id round now =>
    simp only [Change.apply, Cluster.commit] at h
    split at h
    · cases h
    · split_ifs at h
      cases h
      exact ⟨rfl, rfl, by simp⟩
  | knob k =>
    cases k <;> cases h
    all_goals exact ⟨rfl, rfl, fun _ => rfl⟩
  | abort =>
    simp only [Change.apply, Cluster.abort] at h
    split_ifs at h
    cases h
    exact ⟨rfl, rfl, by simp⟩
  | addVoter id =>
    simp only [Change.apply, Cluster.addVoter] at h
    split_ifs at h
    cases h
    exact ⟨rfl, rfl, by simp⟩
  | addVotersFromSingle ids =>
    simp only [Change.apply, Cluster.addVotersFromSingle] at h
    split_ifs at h
    cases h
    exact ⟨rfl, rfl, by simp⟩
  | removeVoter id =>
    simp only [Change.apply, Cluster.removeVoter] at h
    split_ifs at h
    cases h
    exact ⟨rfl, rfl, by simp⟩
  | voterSyncCursor cursor =>
    simp only [Change.apply, Cluster.voterSyncCursor] at h
    split_ifs at h
    cases h
    exact ⟨rfl, rfl, fun _ => rfl⟩
  | rampDone | deferVoter | clearRemoveVoter | voterSyncDone =>
    cases h
    exact ⟨rfl, rfl, fun _ => rfl⟩

/-- `u'` was made of `u` by view changes: its version is greater, its coordinates are no smaller,
and where they are the same so is the `config`. -/
structure Later (u u' : View) : Prop where
  version : u.version < u'.version
  incarnation : u'.incarnation = u.incarnation
  epoch : u.epoch ≤ u'.epoch
  config : u'.epoch = u.epoch → u'.config = u.config

theorem Later.trans {w : View} (h : Later u u') (h' : Later u' w) : Later u w where
  version := h.version.trans h'.version
  incarnation := h'.incarnation.trans h.incarnation
  epoch := h.epoch.trans h'.epoch
  config he := by
    have h1 := h.epoch
    have h2 := h'.epoch
    rw [h'.config (by omega), h.config (by omega)]

instance : Trans Later Later Later := ⟨Later.trans⟩

theorem casView_ok (h : casView c v = .ok u) : ∃ nv bump, c.apply v = .ok (nv, bump) ∧
    u = { nv with version := v.version + 1, epoch := if bump then v.epoch + 1 else nv.epoch } := by
  unfold casView at h
  split at h
  · cases h
  · rename_i nv bump happ
    cases h
    exact ⟨nv, bump, happ, rfl⟩

theorem Register.cas_eq_some {σ : Type} {r : Register} {put : Register → σ} {t : σ}
    (h : (r.cas c).map put = some t) :
    ∃ u, casView c r.view = .ok u ∧ t = put { view := u, past := u :: r.past } := by
  obtain ⟨g, hg, rfl⟩ := Option.map_eq_some_iff.1 h
  unfold Register.cas at hg
  split at hg <;> cases hg
  exact ⟨_, ‹_›, rfl⟩

end Dstore.Cluster

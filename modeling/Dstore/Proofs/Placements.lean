import Dstore.Reconcile
import Dstore.Proofs.Cluster

/-!
# The placements a view carries

A placement has an id: that of the transition it was proposed by. A view carries the one in force
and, during a transition, the one pending. No change of the program brings another than the one it
proposes, and that under an epoch no placement had before.
-/

namespace Dstore.Cluster.Reconcile

variable {v u : View} {c : Change} {id : ℕ}

/-- A placement by its id, nodes and replicas. -/
structure Layout where
  id : ℕ
  nodes : List (NodeID × ℕ × String)
  replicas : ℕ
  deriving DecidableEq, Repr

/-- The placement that is in force. -/
def current (v : View) : Layout := ⟨v.placementEpoch, placed v.nodes, v.replicas⟩

/-- The placement that is in transition. -/
def target (p : Pending) : Layout := ⟨p.id, placed p.nodes, p.replicas⟩

/-- The placements a view knows. -/
def layouts (v : View) : List Layout := current v :: (v.pending.map target).toList

/-- The owners under a placement. -/
def Layout.owners {κ : Type} (l : Layout) (P : Params κ) (k : κ) : List NodeID :=
  P.ownerIDs l.nodes l.replicas k

variable {nv : View} {bump : Bool}

theorem current_mem (v : View) : current v ∈ layouts v := List.mem_cons_self

theorem target_mem {p : Pending} (h : v.pending = some p) : target p ∈ layouts v := by
  simp [layouts, h]

/-- A change brings no placement but one of the next epoch. -/
def Brings (v nv : View) (bump : Bool) : Prop :=
  ∀ l ∈ layouts nv, l ∈ layouts v ∨
    l.id = v.epoch + 1 ∧ nv.pending.map target = some l ∧ bump = true

theorem brings_of_eq (h : layouts nv = layouts v) : Brings v nv bump :=
  fun _ hl => .inl (h ▸ hl)

theorem brings_edit {p p' : Pending} (hp : v.pending = some p) (hc : current nv = current v)
    (hp' : nv.pending = some p') (ht : target p' = target p) :
    Brings v nv bump :=
  brings_of_eq (by simp [layouts, hc, hp, hp', ht])

/-- A proposed transition is a placement of the next epoch. -/
theorem brings_proposeTransition {now : ℤ} {fn : View → Pending → Except Err (View × Pending)}
    (hb : Builds fn) (h : proposeTransition now fn v = .ok (nv, bump)) : Brings v nv bump := by
  obtain ⟨hnone, -, rfl, v', p, hfn, rfl⟩ := proposeTransition_ok h
  have hv := (hb _ _ _ _ hfn).1
  intro l hl
  rcases List.mem_cons.1 hl with rfl | hl
  · refine .inl (List.mem_cons.2 (.inl ?_))
    rw [hv]
    rfl
  · obtain rfl : l = target { p with id := v'.epoch + 1 } := by simpa using hl
    exact .inr ⟨by rw [hv]; rfl, rfl, rfl⟩

theorem brings_casPending {fn : Pending → Pending} (h : casPending id fn v = .ok (nv, bump))
    (hf : ∀ p, target (fn p) = target p) :
    Brings v nv bump := by
  unfold casPending at h
  split at h
  · cases h
  · rename_i p hp
    split_ifs at h
    cases h
    exact brings_edit hp rfl rfl (hf p)

theorem apply_brings (h : c.apply v = .ok (nv, bump)) :
    Brings v nv bump := by
  cases c with
  | updateSelfEntry id addrs writable =>
    simp only [Change.apply, Cluster.updateSelfEntry] at h
    split_ifs at h
    cases h
    have hplaced : ∀ nodes, placed (updateNodes id
        (fun nd => { nd with addrs := addrs, writable := writable }) nodes) = placed nodes :=
      fun nodes => placed_updateNodes _ _ _ fun _ => ⟨rfl, rfl, rfl⟩
    refine brings_of_eq ?_
    simp only [layouts, current, hplaced, Option.map_map]
    congr 3
    funext p
    simp [target, hplaced]
  | nodeChange op id now => exact brings_proposeTransition (nodeChangeFn_builds op id) h
  | ramp id next now => exact brings_proposeTransition (rampFn_builds id next) h
  | join r now => exact brings_proposeTransition (joinFn_builds r) h
  | replicas n now => exact brings_proposeTransition (replicasFn_builds n) h
  | primaryDone node id => exact brings_casPending h fun _ => rfl
  | done node id => exact brings_casPending h fun _ => rfl
  | ack node id =>
    simp only [Change.apply, Cluster.ack] at h
    split at h
    · cases h
    · rename_i p hp
      split_ifs at h
      cases h
      exact brings_edit hp rfl rfl rfl
  | freeze id now =>
    simp only [Change.apply, Cluster.freeze] at h
    split at h
    · cases h
    · rename_i p hp
      split_ifs at h
      cases h
      exact brings_edit hp rfl rfl rfl
  | refreeze force now =>
    simp only [Change.apply, Cluster.refreeze] at h
    split at h
    · cases h
    · rename_i p hp
      split_ifs at h
      cases h
      exact brings_edit hp rfl rfl rfl
  | commit id round now =>
    simp only [Change.apply, Cluster.commit] at h
    split at h
    · cases h
    · rename_i p hp
      split_ifs at h
      cases h
      -- the pending placement is the one in force from here on
      intro l hl
      obtain rfl : l = target p := by simpa [layouts, current, target] using hl
      exact .inl (target_mem hp)
  | abort =>
    simp only [Change.apply, Cluster.abort] at h
    split_ifs at h
    cases h
    intro l hl
    obtain rfl : l = current v := by simpa [layouts, current] using hl
    exact .inl (current_mem v)
  | knob k =>
    cases k <;> cases h
    all_goals exact brings_of_eq rfl
  | addVoter id | addVotersFromSingle ids | removeVoter id | voterSyncCursor cursor =>
    simp only [Change.apply, Cluster.addVoter, Cluster.addVotersFromSingle, Cluster.removeVoter,
      Cluster.voterSyncCursor] at h
    split_ifs at h
    cases h
    exact brings_of_eq rfl
  | rampDone id | deferVoter id | clearRemoveVoter id | voterSyncDone =>
    cases h
    exact brings_of_eq rfl

/-- A CAS brings no placement under an id that was in use. -/
theorem casView_brings (h : casView c v = .ok u) :
    v.epoch ≤ u.epoch ∧ ∀ l ∈ layouts u, l ∈ layouts v ∨
      l.id = v.epoch + 1 ∧ u.pending.map target = some l ∧ u.epoch = v.epoch + 1 := by
  unfold casView at h
  split at h
  · cases h
  · rename_i nv bump happly
    cases h
    have hk := (apply_keeps happly).2.1
    refine ⟨?_, fun l hl => ?_⟩
    · show v.epoch ≤ if bump then v.epoch + 1 else nv.epoch
      split_ifs <;> omega
    · refine (apply_brings happly l hl).imp_right fun ⟨hid, hl, hb⟩ => ⟨hid, hl, ?_⟩
      rw [hb]
      rfl

/-- The placements of a view have different ids, none above its epoch. -/
def Sound (v : View) : Prop :=
  v.placementEpoch ≤ v.epoch ∧
    ∀ p, v.pending = some p → p.id ≤ v.epoch ∧ p.id ≠ v.placementEpoch

instance (v : View) : Decidable (Sound v) :=
  match h : v.pending with
  | none => decidable_of_iff (v.placementEpoch ≤ v.epoch) (by simp [Sound, h])
  | some p => decidable_of_iff (v.placementEpoch ≤ v.epoch ∧ p.id ≤ v.epoch ∧
      p.id ≠ v.placementEpoch) (by simp [Sound, h])

end Dstore.Cluster.Reconcile

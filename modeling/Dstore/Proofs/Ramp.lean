import Dstore.Ramp
import Dstore.Proofs.Cluster

/-!
# The steps of a ramp

The loop of `nextRampWeight` meets the whole target first, so every ramp has one step: the weight
goes from where the node entered straight to the target. That is the next of the four fractions
only from half the target on.
-/

namespace Dstore.Cluster.Ramping

variable {id : NodeID} {target w : ℕ} {v u : View} {c : Change} {now : ℤ}

/-- The weights of a ramp. -/
def fractions (target : ℕ) : List ℕ := rampSteps.map (target / ·)

/-- The first of them above the weight. -/
def above (target w : ℕ) : Option ℕ := (fractions target).find? (w < ·)

variable {nv : View} {i : NodeID} {bump : Bool} {p : Pending}

theorem nextRampWeight_eq (h : w < target) : nextRampWeight w target = target := by
  simp [nextRampWeight, rampSteps, h]

/-- Only from a half on is the target the next step. -/
theorem above_eq_target (h8 : 8 ≤ target) (h : w < target) :
    above target w = some target ↔ target / 2 ≤ w := by
  simp only [above, fractions, rampSteps, List.map_cons, List.map_nil, List.find?_cons,
    List.find?_nil, Nat.div_one]
  by_cases h1 : w < target / 8
  · simp only [h1, decide_true, Option.some.injEq]
    omega
  by_cases h2 : w < target / 4
  · simp only [h1, h2, decide_true, decide_false, Option.some.injEq]
    omega
  by_cases h3 : w < target / 2
  · simp only [h1, h2, h3, decide_true, decide_false, Option.some.injEq]
    omega
  · simp only [h1, h2, h3, h, decide_true, decide_false, true_iff]
    omega

/-- The weights under one id. -/
def weightsOf (nodes : List Node) (id : NodeID) : Multiset ℕ :=
  (nodes.filter (·.id = id)).map Node.weight

/-- The ramps of a node. -/
def entries (ramps : List Ramp) (id : NodeID) : List Ramp := ramps.filter (·.node = id)

theorem weightsOf_append (l m : List Node) :
    weightsOf (l ++ m) id = weightsOf l id + weightsOf m id := by
  simp [weightsOf]

theorem weightsOf_cons (nd : Node) (l : List Node) :
    weightsOf (nd :: l) id = (if nd.id = id then {nd.weight} else 0) + weightsOf l id := by
  unfold weightsOf
  split_ifs with h <;> simp [h]

theorem weightsOf_perm {l m : List Node} (h : l.Perm m) : weightsOf l id = weightsOf m id :=
  Multiset.coe_eq_coe.2 ((h.filter _).map _)

theorem weightsOf_sortNodes (l : List Node) : weightsOf (sortNodes l) id = weightsOf l id :=
  weightsOf_perm (List.perm_insertionSort _ _)

/-- A change of another node leaves the weight alone. -/
theorem weightsOf_updateNodes {f : Node → Node} (hf : ∀ nd, (f nd).id = nd.id)
    (h : i = id → ∀ nd, (f nd).weight = nd.weight) :
    ∀ l : List Node, weightsOf (updateNodes i f l) id = weightsOf l id
  | [] => rfl
  | nd :: l => by
    have ih := weightsOf_updateNodes hf h l
    unfold updateNodes at ih ⊢
    rw [List.map_cons, weightsOf_cons, weightsOf_cons, ih]
    congr 1
    by_cases hi : nd.id = i
    · rw [if_pos hi, hf]
      split_ifs with hid
      · rw [h (hi.symm.trans hid)]
      · rfl
    · rw [if_neg hi]

theorem weightsOf_atFirst {f : Node → List Node}
    (h : ∀ nd, nd.id = i → weightsOf (f nd) id = weightsOf [nd] id) :
    ∀ {l m : List Node}, atFirst i f l = some m → weightsOf m id = weightsOf l id
  | nd :: l, m, hm => by
    unfold atFirst at hm
    split_ifs at hm with hi
    · cases hm
      rw [weightsOf_append, h nd hi, ← weightsOf_append, List.singleton_append]
    · obtain ⟨m', hm', rfl⟩ := Option.map_eq_some_iff.1 hm
      rw [weightsOf_cons, weightsOf_cons, weightsOf_atFirst h hm']

theorem weightsOf_ne {nd : Node} (h : nd.id ≠ id) : weightsOf [nd] id = 0 := by
  rw [weightsOf_cons, if_neg h]
  rfl

theorem weightsOf_set (x : ℕ) : ∀ l : List Node,
    weightsOf (updateNodes id (fun nd => { nd with weight := x }) l) id
      = (weightsOf l id).map fun _ => x
  | [] => rfl
  | nd :: l => by
    have ih := weightsOf_set x l
    unfold updateNodes at ih ⊢
    rw [List.map_cons, weightsOf_cons, weightsOf_cons, ih, Multiset.map_add]
    congr 1
    split_ifs <;> simp_all

theorem weightsOf_set_ne (hi : i ≠ id) (x : ℕ) (l : List Node) :
    weightsOf (updateNodes i (fun nd => { nd with weight := x }) l) id = weightsOf l id :=
  weightsOf_updateNodes (f := fun nd => { nd with weight := x }) (fun _ => rfl)
    (fun he => absurd he hi) l

theorem entries_dropRamp (hi : i ≠ id) (ramps : List Ramp) :
    entries (dropRamp ramps i) id = entries ramps id := by
  unfold entries dropRamp
  rw [List.filter_filter]
  exact List.filter_congr fun r _ => by by_cases hr : r.node = id <;> simp [hr, Ne.symm hi]

/-- The ramps with one step more for a node. -/
def stepped (i : NodeID) (ramps : List Ramp) : List Ramp :=
  ramps.map fun r => if r.node = i then { r with step := r.step + 1 } else r

/-- A step of another ramp leaves this one alone. -/
theorem entries_stepped (i : NodeID) (ramps : List Ramp) :
    entries (stepped i ramps) id =
      if i = id then stepped i (entries ramps id) else entries ramps id := by
  unfold entries stepped
  rw [List.filter_map]
  have hnode : ((fun r : Ramp => decide (r.node = id)) ∘
      fun r => if r.node = i then { r with step := r.step + 1 } else r)
      = fun r => decide (r.node = id) := by
    funext r
    by_cases hr : r.node = i <;> simp [hr]
  rw [hnode]
  split_ifs with hi
  · rfl
  · refine (List.map_congr_left fun r hr => ?_).trans (List.map_id _)
    have hr : r.node = id := by simpa using (List.mem_filter.1 hr).2
    rw [if_neg (by rw [hr]; exact Ne.symm hi)]
    rfl

/-- What a change may do to the weight and the ramp of a node it is not about. -/
structure Leaves (id : NodeID) (v nv : View) : Prop where
  nodes : weightsOf nv.nodes id = weightsOf v.nodes id ∨
    nv.pending = none ∧ ∃ p, v.pending = some p ∧ weightsOf nv.nodes id = weightsOf p.nodes id
  pending : ∀ p', nv.pending = some p' → weightsOf p'.nodes id = weightsOf v.nodes id ∨
    ∃ p, v.pending = some p ∧ weightsOf p'.nodes id = weightsOf p.nodes id
  ramps : entries nv.ramps id = entries v.ramps id

theorem Leaves.of_same (hn : nv.nodes = v.nodes)
    (hp : ∀ p', nv.pending = some p' → ∃ p, v.pending = some p ∧ p'.nodes = p.nodes)
    (hr : nv.ramps = v.ramps) : Leaves id v nv where
  nodes := .inl (by rw [hn])
  pending p' h := by
    obtain ⟨p, h, he⟩ := hp p' h
    exact .inr ⟨p, h, by rw [he]⟩
  ramps := by rw [hr]

theorem leaves_proposeTransition {fn : View → Pending → Except Err (View × Pending)}
    (hb : Builds fn)
    (hfn : ∀ v' p', fn v { nodes := v.nodes, replicas := v.replicas, since := now } = .ok (v', p') →
      weightsOf p'.nodes id = weightsOf v.nodes id ∧ entries v'.ramps id = entries v.ramps id)
    (h : proposeTransition now fn v = .ok (nv, bump)) : Leaves id v nv := by
  obtain ⟨hnone, -, -, v', p', hok, rfl⟩ := proposeTransition_ok h
  obtain ⟨hw, hr⟩ := hfn v' p' hok
  have hv' := (hb _ _ _ _ hok).1
  refine ⟨.inl (by rw [hv']), fun q hq => .inl ?_, hr⟩
  cases hq
  exact hw

/-- So does an operation on another node. -/
theorem nodeChangeFn_leaves {op : NodeOp} (hq : quiet id (.nodeChange op i now)) {p p' : Pending}
    {v' : View} (h : nodeChangeFn op i v p = .ok (v', p')) :
    weightsOf p'.nodes id = weightsOf p.nodes id ∧ entries v'.ramps id = entries v.ramps id := by
  have hdrop : i ≠ id → entries (dropRamp v.ramps i) id = entries v.ramps id :=
    fun hi => entries_dropRamp hi v.ramps
  have hne : i ≠ id → ∀ nd : Node, nd.id = i → weightsOf [nd] id = 0 := fun hi nd hnd =>
    weightsOf_ne (hnd ▸ hi)
  unfold nodeChangeFn at h
  cases op with
  | zone z =>
    dsimp only at h
    split at h <;> cases h
    rename_i nodes hnodes
    refine ⟨weightsOf_atFirst (fun nd _ => ?_) hnodes, rfl⟩
    rw [weightsOf_cons, weightsOf_cons]
  | remove =>
    have hi : i ≠ id := by simpa [quiet] using hq
    dsimp only at h
    split at h <;> cases h
    rename_i nodes hnodes
    refine ⟨weightsOf_atFirst (fun nd hnd => ?_) hnodes, hdrop hi⟩
    rw [hne hi nd hnd]
    rfl
  | drain =>
    have hi : i ≠ id := by simpa [quiet] using hq
    dsimp only at h
    split at h <;> cases h
    rename_i nodes hnodes
    refine ⟨weightsOf_atFirst (fun nd hnd => ?_) hnodes, hdrop hi⟩
    rw [hne hi nd hnd, weightsOf_ne (by simpa [hnd] using hi)]
  | weight x =>
    have hi : i ≠ id := by simpa [quiet] using hq
    dsimp only at h
    split at h <;> cases h
    rename_i nodes hnodes
    refine ⟨weightsOf_atFirst (fun nd hnd => ?_) hnodes, hdrop hi⟩
    rw [hne hi nd hnd, weightsOf_ne (by simpa [hnd] using hi)]

theorem joinFn_leaves {r : JoinRequest} (hr : r.id ≠ id) {p p' : Pending} {v' : View}
    (h : joinFn r v p = .ok (v', p')) :
    weightsOf p'.nodes id = weightsOf p.nodes id ∧ entries v'.ramps id = entries v.ramps id := by
  unfold joinFn at h
  split at h
  · cases h
  · cases h
    refine ⟨?_, ?_⟩
    · rw [weightsOf_sortNodes, weightsOf_append, weightsOf_ne (by exact hr), Multiset.add_zero]
    · dsimp only
      split_ifs
      · simp [entries, hr]
      · rfl

theorem leaves_casPending {i : ℕ} {fn : Pending → Pending} (h : casPending i fn v = .ok (nv, bump))
    (hf : ∀ p, (fn p).nodes = p.nodes) :
    Leaves id v nv := by
  unfold casPending at h
  split at h
  · cases h
  · rename_i p hp
    split_ifs at h
    cases h
    refine .of_same rfl (fun p' hp' => ⟨p, hp, ?_⟩) rfl
    cases hp'
    exact hf p

/-- A change of the program that is not about `id` leaves its weight, or makes the pending one its
weight, and leaves its ramp. -/
theorem apply_leaves (hq : quiet id c) (h : c.apply v = .ok (nv, bump)) : Leaves id v nv := by
  have hself : ∀ p', v.pending = some p' → ∃ p, v.pending = some p ∧ p'.nodes = p.nodes :=
    fun p' h => ⟨p', h, rfl⟩
  cases c with
  | updateSelfEntry i addrs writable =>
    simp only [Change.apply, updateSelfEntry] at h
    split_ifs at h
    cases h
    have hupd : ∀ l, weightsOf (updateNodes i
        (fun nd => { nd with addrs := addrs, writable := writable }) l) id = weightsOf l id :=
      weightsOf_updateNodes (fun _ => rfl) (fun _ _ => rfl)
    refine ⟨.inl (hupd v.nodes), fun p' hp' => ?_, rfl⟩
    obtain ⟨p, hp, rfl⟩ := Option.map_eq_some_iff.1 hp'
    exact .inr ⟨p, hp, hupd p.nodes⟩
  | nodeChange op i now =>
    exact leaves_proposeTransition (nodeChangeFn_builds op i)
      (fun v' p' h => nodeChangeFn_leaves hq h) h
  | ramp i next now => cases hq
  | join r now =>
    exact leaves_proposeTransition (joinFn_builds r)
      (fun v' p' h => joinFn_leaves (by simpa [quiet] using hq) h) h
  | replicas n now =>
    refine leaves_proposeTransition (replicasFn_builds n) (fun v' p' h => ?_) h
    unfold replicasFn at h
    split_ifs at h
    cases h
    exact ⟨rfl, rfl⟩
  | rampDone i => cases hq
  | ack node i =>
    simp only [Change.apply, ack] at h
    split at h
    · cases h
    · rename_i p hp
      split_ifs at h
      cases h
      refine .of_same rfl (fun p' hp' => ⟨p, hp, ?_⟩) rfl
      cases hp'
      rfl
  | freeze i now =>
    simp only [Change.apply, freeze] at h
    split at h
    · cases h
    · rename_i p hp
      split_ifs at h
      cases h
      refine .of_same rfl (fun p' hp' => ⟨p, hp, ?_⟩) rfl
      cases hp'
      rfl
  | primaryDone node i => exact leaves_casPending h fun _ => rfl
  | done node i => exact leaves_casPending h fun _ => rfl
  | refreeze force now =>
    simp only [Change.apply, refreeze] at h
    split at h
    · cases h
    · rename_i p hp
      split_ifs at h
      all_goals
        cases h
        refine .of_same rfl (fun p' hp' => ⟨p, hp, ?_⟩) rfl
        cases hp'
        rfl
  | commit i round now =>
    simp only [Change.apply, commit] at h
    split at h
    · cases h
    · rename_i p hp
      split_ifs at h
      cases h
      exact ⟨.inr ⟨rfl, p, hp, rfl⟩, by simp, rfl⟩
  | abort =>
    simp only [Change.apply, abort] at h
    split_ifs at h
    cases h
    exact .of_same rfl (by simp) rfl
  | knob k => cases k <;> cases h <;> exact .of_same rfl hself rfl
  | deferVoter i => cases h; exact .of_same rfl hself rfl
  | clearRemoveVoter i => cases h; exact .of_same rfl hself rfl
  | voterSyncDone => cases h; exact .of_same rfl hself rfl
  | addVoter i =>
    simp only [Change.apply, addVoter] at h
    split_ifs at h
    cases h
    exact .of_same rfl hself rfl
  | addVotersFromSingle ids =>
    simp only [Change.apply, addVotersFromSingle] at h
    split_ifs at h
    cases h
    exact .of_same rfl hself rfl
  | removeVoter i =>
    simp only [Change.apply, removeVoter] at h
    split_ifs at h
    cases h
    exact .of_same rfl hself rfl
  | voterSyncCursor cursor =>
    simp only [Change.apply, voterSyncCursor] at h
    split_ifs at h
    cases h
    exact .of_same rfl hself rfl

/-- Where a node on its way up stands: at the weight it entered with or at the target; no transition
is to give it another, and its entry is there until it has arrived. -/
structure Inv (id : NodeID) (target w : ℕ) (v : View) : Prop where
  weight : weightsOf v.nodes id = {w} ∨ weightsOf v.nodes id = {target}
  pending : ∀ p, v.pending = some p →
    weightsOf p.nodes id = weightsOf v.nodes id ∨ weightsOf p.nodes id = {target}
  target : ∀ r ∈ entries v.ramps id, r.target = target
  listed : weightsOf v.nodes id = {w} → entries v.ramps id ≠ []

theorem Inv.weights_ne (hw : w < target) (h : weightsOf v.nodes id = {target}) :
    weightsOf v.nodes id ≠ {w} := by
  rw [h]
  simpa using hw.ne'

theorem Leaves.weights (hl : Leaves id v nv) (hi : Inv id target w v) :
    weightsOf nv.nodes id = weightsOf v.nodes id ∨ weightsOf nv.nodes id = {target} := by
  rcases hl.nodes with h | ⟨-, p, hp, h⟩
  · exact .inl h
  · rcases hi.pending p hp with hp | hp
    · exact .inl (h.trans hp)
    · exact .inr (h.trans hp)

/-- A change that leaves node and ramp alone keeps the invariant. -/
theorem Leaves.inv (hl : Leaves id v nv) (hw : w < target) (hi : Inv id target w v) :
    Inv id target w nv := by
  refine ⟨?_, fun p' hp' => ?_, hl.ramps ▸ hi.target, fun h => ?_⟩
  · rcases hl.weights hi with h | h
    · rw [h]
      exact hi.weight
    · exact .inr h
  · rcases hl.nodes with h | ⟨hnone, -⟩
    · rw [h]
      rcases hl.pending p' hp' with hp | ⟨p, hpend, hp⟩
      · exact .inl hp
      · rw [hp]
        exact hi.pending p hpend
    · rw [hnone] at hp'
      cases hp'
  · rw [hl.ramps]
    rcases hl.weights hi with h' | h'
    · exact hi.listed (h' ▸ h)
    · exact absurd h (Inv.weights_ne hw h')

theorem find_of_weightsOf {nodes : List Node} {x : ℕ} (h : weightsOf nodes id = {x}) :
    ∃ nd, nodes.find? (·.id = id) = some nd ∧ nd.weight = x := by
  obtain ⟨nd, hnd, rfl⟩ : ∃ nd, nodes.filter (·.id = id) = [nd] ∧ nd.weight = x := by
    have hl := Multiset.coe_eq_singleton.1 h
    rcases hf : nodes.filter (·.id = id) with _ | ⟨nd, rest⟩
    · simp [hf] at hl
    · rw [hf, List.map_cons, List.cons.injEq, List.map_eq_nil_iff] at hl
      exact ⟨nd, by rw [hf, hl.2], hl.1⟩
  refine ⟨nd, ?_, rfl⟩
  rw [← List.head?_filter, hnd, List.head?_cons]

/-- A tick is about the ramp of another node, or it raises this one's to the target, or it ends
the ramp at the target. -/
theorem ticked (hw : w < target) (hi : Inv id target w v) (hnone : v.pending = none)
    (hc : nextRamp v now = some c) (h : c.apply v = .ok (nv, bump)) :
    Inv id target w nv ∧ weightsOf nv.nodes id = weightsOf v.nodes id := by
  unfold nextRamp at hc
  rcases hr : v.ramps with _ | ⟨r, rest⟩
  · rw [hr] at hc
    cases hc
  rw [hr] at hc
  dsimp only at hc
  by_cases hid : r.node = id
  · subst hid
    have htarget : r.target = target := hi.target r (by simp [entries, hr])
    have hnode : ∀ x, weightsOf v.nodes r.node = {x} →
        ∃ nd, v.node r.node = some nd ∧ nd.weight = x := by
      intro x hx
      obtain ⟨nd, hnd, hw⟩ := find_of_weightsOf hx
      exact ⟨nd, by simp [View.node, hnd], hw⟩
    rcases hi.weight with hwt | hwt
    · -- on its way: the target set gives it the whole weight
      obtain ⟨nd, hnd, hndw⟩ := hnode w hwt
      rw [hnd] at hc
      dsimp only at hc
      rw [htarget, hndw, if_neg (not_le.2 hw), nextRampWeight_eq hw] at hc
      cases hc
      change proposeTransition now (rampFn r.node target) v = .ok (nv, bump) at h
      obtain ⟨-, -, -, v', p', hfn, rfl⟩ := proposeTransition_ok h
      cases hfn
      have hent : entries (stepped r.node v.ramps) r.node
          = stepped r.node (entries v.ramps r.node) := by rw [entries_stepped, if_pos rfl]
      refine ⟨⟨.inl hwt, fun p hp => .inr ?_, fun x hx => ?_, fun _ he => ?_⟩, rfl⟩
      · cases hp
        exact (weightsOf_set target v.nodes).trans (by rw [hwt, Multiset.map_singleton])
      · obtain ⟨y, hy, rfl⟩ := List.mem_map.1 (hent ▸ hx)
        have := hi.target y hy
        split_ifs <;> exact this
      · exact hi.listed hwt (List.map_eq_nil_iff.1 (hent ▸ he))
    · obtain ⟨nd, hnd, hndw⟩ := hnode target hwt
      rw [hnd] at hc
      dsimp only at hc
      rw [htarget, hndw, if_pos le_rfl] at hc
      cases hc
      cases h
      refine ⟨⟨.inr hwt, fun p hp => ?_, fun x hx => ?_, fun he => ?_⟩, rfl⟩
      · exact hi.pending p hp
      · have hx := List.mem_filter.1 hx
        exact hi.target x (List.mem_filter.2 ⟨List.mem_of_mem_filter hx.1, hx.2⟩)
      · exact absurd he (Inv.weights_ne hw hwt)
  · have hl : Leaves id v nv := by
      have hdone : c = .rampDone r.node → Leaves id v nv := by
        rintro rfl
        cases h
        exact ⟨.inl rfl, fun p' hp' => .inr ⟨p', hp', rfl⟩, entries_dropRamp hid v.ramps⟩
      split at hc
      · cases hc
        exact hdone rfl
      · split_ifs at hc
        · cases hc
          exact hdone rfl
        · cases hc
          refine leaves_proposeTransition (rampFn_builds _ _) (fun v' p' hfn => ?_) h
          cases hfn
          exact ⟨weightsOf_set_ne hid _ v.nodes,
            (entries_stepped r.node v.ramps).trans (if_neg hid)⟩
    refine ⟨hl.inv hw hi, hl.nodes.resolve_right ?_⟩
    rintro ⟨-, p, hp, -⟩
    rw [hnone] at hp
    cases hp

theorem Inv.of_commit {version epoch : ℕ} (h : Inv id target w nv) :
    Inv id target w { nv with version := version, epoch := epoch } :=
  ⟨h.weight, h.pending, h.target, h.listed⟩

/-- The weight stays, or becomes the target. -/
theorem step_inv {a : Action} (hw : w < target) (hi : Inv id target w v)
    (h : step id v a = some u) : Inv id target w u ∧
      (weightsOf u.nodes id = weightsOf v.nodes id ∨ weightsOf u.nodes id = {target}) := by
  have hcas : ∀ {c : Change}, (casView c v).toOption = some u → ∃ nv bump,
      c.apply v = .ok (nv, bump) ∧ u = { nv with
        version := v.version + 1, epoch := if bump then v.epoch + 1 else nv.epoch } := by
    intro c hc
    rcases hok : casView c v with e | u'
    · rw [hok] at hc
      cases hc
    · rw [hok] at hc
      cases hc
      exact casView_ok hok
  cases a with
  | tick now =>
    unfold step at h
    split_ifs at h with hready
    obtain ⟨c, hc, h⟩ := Option.bind_eq_some_iff.1 h
    obtain ⟨nv, bump, hok, rfl⟩ := hcas h
    obtain ⟨hinv, hsame⟩ := ticked hw hi hready.2.1 hc hok
    exact ⟨hinv.of_commit, .inl hsame⟩
  | other c =>
    simp only [step] at h
    split_ifs at h with hq
    obtain ⟨nv, bump, hok, rfl⟩ := hcas h
    have hl := apply_leaves hq hok
    exact ⟨(hl.inv hw hi).of_commit, hl.weights hi⟩

theorem run_inv (hw : w < target) (hi : Inv id target w v) {as : List Action}
    (h : Machine.run (step id) v as = some u) : Inv id target w u :=
  Machine.invariant (fun _ _ _ hs hstep => (step_inv hw hs hstep).1) as hi h

/-- Nothing stands in the way of a transition. -/
structure Ready (v : View) : Prop where
  voterSync : v.voterSync ≠ .pending
  pending : v.pending = none
  removeVoters : v.removeVoters = []

theorem run_other {c : Change} (hq : quiet id c) (hc : casView c v = .ok u) :
    Machine.run (step id) v [.other c] = some u :=
  Machine.run_cons.2 ⟨u, by simp [step, hq, hc, Except.toOption], rfl⟩

variable (id) in
/-- Voters that are to be removed can all be removed. -/
theorem exists_cleared : ∀ (n : ℕ) (v : View), v.removeVoters.length ≤ n → v.voterSync = .done →
    v.pending = none →
    ∃ as u, Machine.run (step id) v as = some u ∧ Ready u ∧ u.ramps = v.ramps
  | 0, v, hn, hs, hp =>
    ⟨[], v, rfl, ⟨by rw [hs]; decide, hp, List.eq_nil_of_length_eq_zero (by omega)⟩, rfl⟩
  | n + 1, v, hn, hs, hp => by
    rcases hr : v.removeVoters with _ | ⟨x, rest⟩
    · exact ⟨[], v, rfl, ⟨by rw [hs]; decide, hp, hr⟩, rfl⟩
    · obtain ⟨as, u, hrun, hready, hramps⟩ := exists_cleared n
        { v with removeVoters := removeID v.removeVoters x, version := v.version + 1 }
        (by
          have hle := List.length_filter_le (fun y => decide (y ≠ x)) rest
          have heq : removeID v.removeVoters x = rest.filter fun y => decide (y ≠ x) := by
            rw [removeID, hr, List.filter_cons_of_neg (by simp)]
          rw [hr, List.length_cons] at hn
          change (removeID v.removeVoters x).length ≤ n
          rw [heq]
          omega) hs hp
      exact ⟨.other (.clearRemoveVoter x) :: as, u,
        Machine.run_append.2 ⟨_, run_other rfl rfl, hrun⟩, hready, hramps⟩

variable (id) in
/-- Every view can be led to one that is ready. -/
theorem exists_ready (v : View) :
    ∃ as u, Machine.run (step id) v as = some u ∧ Ready u ∧ u.ramps = v.ramps := by
  obtain ⟨as, u, hrun, hp, hramps⟩ : ∃ as u, Machine.run (step id) v as = some u ∧
      u.pending = none ∧ u.ramps = v.ramps := by
    rcases hp : v.pending with _ | p
    · exact ⟨[], v, rfl, hp, rfl⟩
    · refine ⟨[.other .abort],
        { v with pending := none, version := v.version + 1, epoch := v.epoch + 1 },
        run_other rfl ?_, rfl, rfl⟩
      simp [casView, Change.apply, abort, hp]
  obtain ⟨bs, u', hrun', hready, hramps'⟩ := exists_cleared id _
    { u with voterSync := .done, voterSyncCursor := [], voterSyncTarget := none,
             version := u.version + 1 } le_rfl rfl hp
  exact ⟨as ++ .other .voterSyncDone :: bs, u', Machine.run_append.2 ⟨u, hrun,
    Machine.run_append.2 ⟨_, run_other rfl rfl, hrun'⟩⟩, hready, hramps'.trans hramps⟩

theorem validateChange_set {x R : ℕ} (hx : 0 < x) (nodes : List Node) :
    validateChange nodes (updateNodes i (fun nd => { nd with weight := x }) nodes) R = .ok () := by
  have hkept : (nodes.filter fun n => 0 < n.weight && !((updateNodes i
      (fun nd => { nd with weight := x }) nodes).any fun t => t.id = n.id ∧ 0 < t.weight)) = [] := by
    refine List.filter_eq_nil_iff.2 fun n hn => ?_
    simp only [Bool.and_eq_true, decide_eq_true_eq, Bool.not_eq_true', List.any_eq_false, not_and,
      not_forall]
    intro hw
    refine ⟨if n.id = i then { n with weight := x } else n, List.mem_map_of_mem hn, ?_⟩
    split_ifs <;> simp [hx, hw]
  unfold validateChange
  rw [hkept]
  exact if_neg (by rintro ⟨h, h'⟩; exact absurd h (not_le.2 h'))

section serve

variable {r : Ramp} {rest : List Ramp} {nd : Node}

variable (id) in
theorem run_tick (hv : Ready v) (hc : nextRamp v now = some c) (h : c.apply v = .ok (nv, bump)) :
    Machine.run (step id) v [.tick now] = some { nv with
      version := v.version + 1, epoch := if bump then v.epoch + 1 else nv.epoch } := by
  refine Machine.run_cons.2 ⟨_, ?_, rfl⟩
  simp [step, hv.voterSync, hv.pending, hv.removeVoters, hc, casView, h, Except.toOption]

theorem run_done (now : ℤ) (hv : Ready v) (hr : v.ramps = r :: rest)
    (hat : ∀ nd, v.node r.node = some nd → r.target ≤ nd.weight) :
    Machine.run (step id) v [.tick now]
      = some { v with ramps := dropRamp v.ramps r.node, version := v.version + 1 } := by
  have hc : nextRamp v now = some (.rampDone r.node) := by
    unfold nextRamp
    rw [hr]
    rcases hnd : v.node r.node with _ | nd
    · simp [hnd]
    · simp [hnd, hat nd hnd]
  exact run_tick id hv hc rfl

theorem map_id_updateNodes (i : NodeID) (x : ℕ) (nodes : List Node) :
    (updateNodes i (fun nd => { nd with weight := x }) nodes).map Node.id = nodes.map Node.id := by
  unfold updateNodes
  rw [List.map_map]
  refine List.map_congr_left fun nd _ => ?_
  simp only [Function.comp_apply]
  split_ifs <;> rfl

theorem casView_freeze (now : ℤ) (hp : v.pending = some p) (hf : p.frozen = false)
    (hack : p.participantsAck = []) : casView (.freeze p.id now) v = .ok { v with
      pending := some { p with participants := [], frozen := true, frozenAt := now }
      version := v.version + 1
      epoch := v.epoch + 1 } := by
  have hparts : v.allMembers.filter (· ∈ p.participantsAck) = [] :=
    List.filter_eq_nil_iff.2 fun n _ => by simp [hack]
  simp [casView, Change.apply, freeze, hp, hf, hparts]

theorem casView_commit (now : ℤ) (hp : v.pending = some p) (hparts : p.participants = [])
    (hids : p.nodes.map Node.id = v.nodes.map Node.id) :
    ∃ u, casView (.commit p.id p.round now) v = .ok u ∧ u.nodes = p.nodes ∧ u.ramps = v.ramps ∧
      u.pending = none ∧ u.voterSync = v.voterSync ∧ u.removeVoters = v.removeVoters := by
  have hremoved : ((v.nodes.map Node.id).filter fun id => id ∉ p.nodes.map Node.id) = [] := by
    rw [hids]
    exact List.filter_eq_nil_iff.2 fun n hn => by simpa using hn
  simp only [casView, Change.apply, commit, hp, hparts, hremoved, ne_eq, not_true_eq_false, or_self,
    if_false, List.not_mem_nil, false_and, exists_false]
  exact ⟨_, rfl, rfl, rfl, rfl, rfl, rfl⟩

variable (id) in
/-- A ready view raises the first ramp's node to its target. -/
theorem run_raised (hv : Ready v) (hr : v.ramps = r :: rest) (hnd : v.node r.node = some nd)
    (hlt : nd.weight < r.target) : ∃ as u, Machine.run (step id) v as = some u ∧ Ready u ∧
      u.nodes = updateNodes r.node (fun nd => { nd with weight := r.target }) v.nodes ∧
      u.ramps = stepped r.node v.ramps := by
  have hc : nextRamp v 0 = some (.ramp r.node r.target 0) := by
    unfold nextRamp
    rw [hr]
    simp [hnd, not_le.2 hlt, nextRampWeight_eq hlt]
  have hpos : 0 < r.target := by omega
  have hprop : (Change.ramp r.node r.target 0).apply v = .ok ({ v with
      ramps := stepped r.node v.ramps
      pending := some {
        nodes := updateNodes r.node (fun nd => { nd with weight := r.target }) v.nodes
        replicas := v.replicas, since := 0, id := v.epoch + 1 } }, true) := by
    simp only [Change.apply, proposeTransition, hv.pending, hv.voterSync, rampFn,
      validateChange_set hpos, Option.isSome_none, Bool.false_eq_true, if_false]
    rfl
  have htick := run_tick id hv hc hprop
  have hfreeze := casView_freeze 0 (v := { v with
      ramps := stepped r.node v.ramps
      pending := some {
        nodes := updateNodes r.node (fun nd => { nd with weight := r.target }) v.nodes
        replicas := v.replicas, since := 0, id := v.epoch + 1 }
      version := v.version + 1, epoch := v.epoch + 1 }) rfl rfl rfl
  obtain ⟨u, hcommit, hnodes, hramps, hpend, hsync, hrem⟩ := casView_commit 0 (v := { v with
      ramps := stepped r.node v.ramps
      pending := some {
        nodes := updateNodes r.node (fun nd => { nd with weight := r.target }) v.nodes
        replicas := v.replicas, since := 0, id := v.epoch + 1
        participants := [], frozen := true, frozenAt := 0 }
      version := v.version + 1 + 1, epoch := v.epoch + 1 + 1 }) rfl rfl
        (map_id_updateNodes r.node r.target v.nodes)
  exact ⟨_, u, Machine.run_append.2 ⟨_, htick, Machine.run_append.2 ⟨_, run_other rfl hfreeze,
    run_other rfl hcommit⟩⟩, ⟨hsync ▸ hv.voterSync, hpend, hrem.trans hv.removeVoters⟩, hnodes,
    hramps⟩

variable (id) in
/-- A ready view can be led to one with a ramp less. -/
theorem exists_served (hv : Ready v) (hr : v.ramps = r :: rest) :
    ∃ as u, Machine.run (step id) v as = some u ∧ Ready u ∧ u.ramps.length < v.ramps.length := by
  have hdrop : ∀ {u : View} {r' : Ramp} {rest' : List Ramp}, Ready u → u.ramps = r' :: rest' →
      (∀ nd, u.node r'.node = some nd → r'.target ≤ nd.weight) →
      ∃ as u', Machine.run (step id) u as = some u' ∧ Ready u' ∧ u'.ramps.length < u.ramps.length := by
    intro u r' rest' hu hr' hat
    refine ⟨_, _, run_done 0 hu hr' hat, ⟨hu.voterSync, hu.pending, hu.removeVoters⟩, ?_⟩
    have hle := List.length_filter_le (fun x : Ramp => decide (x.node ≠ r'.node)) rest'
    simp only [dropRamp, hr', List.length_cons]
    rw [List.filter_cons_of_neg (by simp)]
    omega
  by_cases hat : ∀ nd, v.node r.node = some nd → r.target ≤ nd.weight
  · exact hdrop hv hr hat
  · push Not at hat
    obtain ⟨nd, hnd, hlt⟩ := hat
    obtain ⟨as, u, hrun, hu, hnodes, hramps⟩ := run_raised id hv hr hnd hlt
    rw [hr, stepped, List.map_cons, if_pos rfl] at hramps
    have hraised : ∀ nd', u.node r.node = some nd' → r.target ≤ nd'.weight := by
      intro nd' hnd'
      have hfind : u.nodes.find? (·.id = r.node) = some nd' := by
        simpa [View.node, hu.pending] using hnd'
      have hid : nd'.id = r.node := by simpa using List.find?_some hfind
      obtain ⟨x, -, rfl⟩ := List.mem_map.1 (hnodes ▸ List.mem_of_find?_eq_some hfind)
      split_ifs at hid ⊢ with hx
      · exact le_rfl
      · exact absurd hid hx
    obtain ⟨bs, u', hrun', hu', hlen⟩ := hdrop hu hramps hraised
    refine ⟨as ++ bs, u', Machine.run_append.2 ⟨u, hrun, hrun'⟩, hu', ?_⟩
    rw [hramps, List.length_cons, List.length_map, ← List.length_cons, ← hr] at hlen
    exact hlen

variable (id) in
theorem exists_drained : ∀ (n : ℕ) (v : View), v.ramps.length ≤ n → Ready v →
    ∃ as u, Machine.run (step id) v as = some u ∧ u.ramps = []
  | 0, v, hn, _ => ⟨[], v, rfl, List.eq_nil_of_length_eq_zero (by omega)⟩
  | n + 1, v, hn, hv => by
    rcases hr : v.ramps with _ | ⟨r, rest⟩
    · exact ⟨[], v, rfl, hr⟩
    · obtain ⟨as, u, hrun, hu, hlen⟩ := exists_served id hv hr
      obtain ⟨bs, u', hrun', hnil⟩ := exists_drained n u (by omega) hu
      exact ⟨as ++ bs, u', Machine.run_append.2 ⟨u, hrun, hrun'⟩, hnil⟩

end serve

theorem exists_arrived (hw : w < target) (hi : Inv id target w v) :
    ∃ as u, Machine.run (step id) v as = some u ∧ weightsOf u.nodes id = {target} ∧
      entries u.ramps id = [] := by
  obtain ⟨as, u, hrun, hready, -⟩ := exists_ready id v
  obtain ⟨bs, u', hrun', hnil⟩ := exists_drained id _ u le_rfl hready
  have hrun := Machine.run_append.2 ⟨u, hrun, hrun'⟩
  have hinv := run_inv hw hi hrun
  have hnone : entries u'.ramps id = [] := by rw [hnil]; rfl
  exact ⟨as ++ bs, u', hrun, hinv.weight.resolve_left fun h => hinv.listed h hnone, hnone⟩

/-- The node has entered the placement with weight `w`, below its target, and has a ramp entry. -/
structure Admitted (id : NodeID) (target w : ℕ) (v : View) : Prop where
  pending : v.pending = none
  weight : weightsOf v.nodes id = {w}
  below : w < target
  target : ∀ r ∈ entries v.ramps id, r.target = target
  listed : entries v.ramps id ≠ []

instance (id : NodeID) (target w : ℕ) (v : View) : Decidable (Admitted id target w v) :=
  decidable_of_iff (v.pending = none ∧ weightsOf v.nodes id = {w} ∧ w < target ∧
      (∀ r ∈ entries v.ramps id, r.target = target) ∧ entries v.ramps id ≠ [])
    ⟨fun ⟨h1, h2, h3, h4, h5⟩ => ⟨h1, h2, h3, h4, h5⟩, fun h => ⟨h.1, h.2, h.3, h.4, h.5⟩⟩

theorem Admitted.inv (h : Admitted id target w v) : Inv id target w v where
  weight := .inl h.weight
  pending p hp := by
    rw [h.pending] at hp
    cases hp
  target := h.target
  listed _ := h.listed

/-- In every run from `v` the weight of `id` only ever goes to the next fraction of the target
above it, the entry stays until the target is reached, and from every view the run can go on to
one with the target's weight and without the entry. -/
structure InSteps (id : NodeID) (target : ℕ) (v : View) : Prop where
  next : ∀ as u a u', Machine.run (step id) v as = some u → step id u a = some u' →
    ∀ x, weightsOf u.nodes id = {x} → weightsOf u'.nodes id = {x} ∨
      ∃ y, above target x = some y ∧ weightsOf u'.nodes id = {y}
  listed : ∀ as u, Machine.run (step id) v as = some u → ∀ x < target,
    weightsOf u.nodes id = {x} → entries u.ramps id ≠ []
  arrives : ∀ as u, Machine.run (step id) v as = some u → ∃ bs u',
    Machine.run (step id) u bs = some u' ∧ weightsOf u'.nodes id = {target} ∧
      entries u'.ramps id = []

/-- A ramp goes in steps exactly where it is at half the target or above. -/
theorem inSteps_iff (id : NodeID) (target w : ℕ) (v : View) (h8 : 8 ≤ target)
    (h : Admitted id target w v) : InSteps id target v ↔ target / 2 ≤ w := by
  rw [← above_eq_target h8 h.below]
  constructor
  · intro hsteps
    obtain ⟨as, u, hrun, hend, -⟩ := hsteps.arrives [] v rfl
    have hstart : weightsOf v.nodes id ≠ {target} := by
      rw [h.weight]
      simpa using h.below.ne
    obtain ⟨pre, a, post, t, t', -, hpre, hstep, -, hbefore, hafter⟩ :=
      Machine.exists_first (P := fun u => weightsOf u.nodes id = {target}) hrun hstart hend
    have hwt := (run_inv h.below h.inv hpre).weight.resolve_right hbefore
    rcases hsteps.next pre t a t' hpre hstep w hwt with hsame | ⟨y, hy, hyt⟩
    · rw [hafter, Multiset.singleton_inj] at hsame
      exact absurd hsame h.below.ne'
    · rw [hafter, Multiset.singleton_inj] at hyt
      rw [hy, hyt]
  · intro habove
    refine ⟨fun as u a u' hrun hstep x hx => ?_, fun as u hrun x hxt hx => ?_, fun as u hrun => ?_⟩
    · have hinv := run_inv h.below h.inv hrun
      rcases (step_inv h.below hinv hstep).2 with hsame | htarget
      · exact .inl (hsame.trans hx)
      · rcases hinv.weight with hwt | hwt
        · rw [hx, Multiset.singleton_inj] at hwt
          exact .inr ⟨target, hwt ▸ habove, htarget⟩
        · exact .inl (htarget.trans (hwt.symm.trans hx))
    · have hinv := run_inv h.below h.inv hrun
      refine hinv.listed (hinv.weight.resolve_right fun hwt => ?_)
      rw [hx, Multiset.singleton_inj] at hwt
      exact hxt.ne hwt
    · exact exists_arrived h.below (run_inv h.below h.inv hrun)

/-- A cluster of one node, and what it becomes when a second has joined with weight 8. -/
def solo : View where
  incarnation := 1
  epoch := 1
  version := 1
  replicas := 2
  minReplicas := 2
  voters := [⟨1, 1⟩]
  nodes := [{ id := 1, weight := 8, token := [1] }]

/-- A node with its first fraction. -/
def entered : View := { solo with
  epoch := 4
  version := 4
  placementEpoch := 2
  nodes := [{ id := 1, weight := 8, token := [1] },
    { id := 2, weight := 1, token := [2], incarnation := 1 }]
  ramps := [⟨2, 8, 1⟩] }

/-- The first step of the ramp goes from an eighth of the target to the whole. -/
theorem ramp_jumps_to_target :
    (casChain solo [.join { id := 2, tokenID := [2], weight := 8 } 0, .freeze 2 0,
      .commit 2 0 0]).getLast? = some entered ∧
    weightsOf entered.nodes 2 = {1} ∧ above 8 1 = some 2 ∧
    (Machine.run (step 2) entered [.tick 0, .other (.freeze 5 0), .other (.commit 5 0 0)]).map
      (fun u => weightsOf u.nodes 2) = some {8} := by
  decide +kernel

/-- The same node with its weight set to a half by hand. -/
def halfway : View := { entered with
  nodes := [{ id := 1, weight := 8, token := [1] },
    { id := 2, weight := 4, token := [2], incarnation := 1 }] }

theorem inSteps_halfway : Admitted 2 8 4 halfway ∧ InSteps 2 8 halfway :=
  ⟨by decide, (inSteps_iff 2 8 4 halfway (by decide) (by decide)).2 (by decide)⟩

end Dstore.Cluster.Ramping

import Dstore.Transition
import Dstore.Proofs.Cluster

/-!
# What a commit of a transition rests on

The commit checks that every participant is in `done`. That says what it should where a report is
applied in the round its pass was for, and where a freeze leaves somebody; the change functions
check neither.
-/

namespace Dstore.Cluster.Transition

variable {v nv u : View} {p p' q : Pending} {c : Change} {bump : Bool} {s s' : State} {a : Action}
  {now : ℤ}

theorem mem_addID {ids : List NodeID} {m n : NodeID} : n ∈ addID ids m ↔ n ∈ ids ∨ n = m := by
  unfold addID
  split_ifs with h
  · exact ⟨.inl, fun hn => hn.elim id fun hn => hn ▸ h⟩
  · simp

/-- What a change can do to a transition in progress. -/
inductive Moves (c : Change) (p p' : Pending) : Prop
  | kept (hf : p'.frozen = p.frozen) (hp : p'.participants = p.participants)
      (hr : p'.round = p.round) (hd : p'.done = p.done) (hpd : p.primaryDone ⊆ p'.primaryDone)
  | done {n : NodeID} (hc : c = .done n p.id) (hf : p'.frozen = p.frozen)
      (hp : p'.participants = p.participants) (hr : p'.round = p.round)
      (hd : p'.done = addID p.done n) (hpd : p'.primaryDone = p.primaryDone)
  | freeze (hc : ∃ id now, c = .freeze id now) (hf : p'.frozen = true) (hr : p'.round = p.round)
      (hd : p'.done = p.done) (hpd : p'.primaryDone = p.primaryDone)
  | refreeze (hc : ∃ force now, c = .refreeze force now) (hf : p'.frozen = true)
      (hd : p'.done = []) (hr : p'.round = p.round + 1)

/-- What a change makes of `pending`: nothing is left of it, a new one is proposed under an id
above the epoch, or the one in progress moves. -/
inductive Pends (c : Change) (v nv : View) (bump : Bool) : Prop
  | none (h : nv.pending = none)
  | proposed {p : Pending} (h : nv.pending = some p) (hid : p.id = v.epoch + 1)
      (hb : bump = true) (hf : p.frozen = false) (hd : p.done = [])
  | moved {p p' : Pending} (h : v.pending = some p) (h' : nv.pending = some p')
      (hid : p'.id = p.id) (hm : Moves c p p')

theorem Pends.of_eq (h : nv.pending = v.pending) : Pends c v nv bump := by
  cases hp : v.pending with
  | none => exact .none (h.trans hp)
  | some p => exact .moved hp (h.trans hp) rfl (.kept rfl rfl rfl rfl (List.Subset.refl _))

theorem pends_proposeTransition {fn : View → Pending → Except Err (View × Pending)}
    (hb : Builds fn) (h : proposeTransition now fn v = .ok (nv, bump)) : Pends c v nv bump := by
  obtain ⟨-, -, rfl, v', p, hfn, rfl⟩ := proposeTransition_ok h
  obtain ⟨hv, hp⟩ := hb _ _ _ _ hfn
  refine .proposed rfl ?_ rfl ?_ ?_
  · exact congrArg (·.epoch + 1) hv
  · exact congrArg Pending.frozen hp
  · exact congrArg Pending.done hp

theorem casPending_ok {id : ℕ} {fn : Pending → Pending}
    (h : casPending id fn v = .ok (nv, bump)) :
    ∃ p, v.pending = some p ∧ p.id = id ∧ nv.pending = some (fn p) := by
  unfold casPending at h
  split at h
  · cases h
  · rename_i p hp
    split_ifs at h with hid
    cases h
    exact ⟨p, hp, not_not.1 hid, rfl⟩

/-- What a change does to the transition in progress. -/
theorem pends_apply (h : c.apply v = .ok (nv, bump)) : Pends c v nv bump := by
  cases c with
  | nodeChange op id now => exact pends_proposeTransition (nodeChangeFn_builds op id) h
  | ramp id next now => exact pends_proposeTransition (rampFn_builds id next) h
  | join r now => exact pends_proposeTransition (joinFn_builds r) h
  | replicas n now => exact pends_proposeTransition (replicasFn_builds n) h
  | primaryDone node id =>
    obtain ⟨p, hp, -, hn⟩ := casPending_ok h
    exact .moved hp hn rfl (.kept rfl rfl rfl rfl fun _ hm => mem_addID.2 (.inl hm))
  | done node id =>
    obtain ⟨p, hp, rfl, hn⟩ := casPending_ok h
    exact .moved hp hn rfl (.done rfl rfl rfl rfl rfl rfl)
  | updateSelfEntry id addrs writable =>
    simp only [Change.apply, Cluster.updateSelfEntry] at h
    split_ifs at h
    cases h
    cases hp : v.pending with
    | none => exact .none rfl
    | some p => exact .moved hp rfl rfl (.kept rfl rfl rfl rfl (List.Subset.refl _))
  | ack node id =>
    simp only [Change.apply, Cluster.ack] at h
    split at h
    · cases h
    · rename_i p hp
      split_ifs at h
      cases h
      exact .moved hp rfl rfl (.kept rfl rfl rfl rfl (List.Subset.refl _))
  | freeze id now =>
    simp only [Change.apply, Cluster.freeze] at h
    split at h
    · cases h
    · rename_i p hp
      split_ifs at h
      cases h
      exact .moved hp rfl rfl (.freeze ⟨_, _, rfl⟩ rfl rfl rfl rfl)
  | refreeze force now =>
    simp only [Change.apply, Cluster.refreeze] at h
    split at h
    · cases h
    · rename_i p hp
      split_ifs at h with hf
      cases h
      exact .moved hp rfl rfl (.refreeze ⟨_, _, rfl⟩ (by simpa using hf) rfl rfl)
  | commit id round now =>
    simp only [Change.apply, Cluster.commit] at h
    split at h
    · cases h
    · split_ifs at h
      cases h
      exact .none rfl
  | abort =>
    simp only [Change.apply, Cluster.abort] at h
    split_ifs at h
    cases h
    exact .none rfl
  | knob k =>
    cases k <;> cases h
    all_goals exact .of_eq rfl
  | addVoter id =>
    simp only [Change.apply, Cluster.addVoter] at h
    split_ifs at h
    cases h
    exact .of_eq rfl
  | addVotersFromSingle ids =>
    simp only [Change.apply, Cluster.addVotersFromSingle] at h
    split_ifs at h
    cases h
    exact .of_eq rfl
  | removeVoter id =>
    simp only [Change.apply, Cluster.removeVoter] at h
    split_ifs at h
    cases h
    exact .of_eq rfl
  | voterSyncCursor cursor =>
    simp only [Change.apply, Cluster.voterSyncCursor] at h
    split_ifs at h
    cases h
    exact .of_eq rfl
  | rampDone | deferVoter | clearRemoveVoter | voterSyncDone =>
    cases h
    exact .of_eq rfl

theorem pends_casView (h : casView c v = .ok u) : ∃ bump, Pends c v u bump ∧
    u.epoch = if bump then v.epoch + 1 else v.epoch := by
  obtain ⟨nv, bump, happ, rfl⟩ := casView_ok h
  obtain ⟨-, he, -⟩ := apply_keeps happ
  refine ⟨bump, ?_, by rw [← he]⟩
  cases pends_apply happ with
  | none h => exact .none h
  | proposed h hid hb hf hd => exact .proposed h hid hb hf hd
  | moved h h' hid hm => exact .moved h h' hid hm

/-- What a view says of a transition it shares with a later one. -/
structure Known (past : List View) (v : View) : Prop where
  epoch : ∀ u ∈ past, u.epoch ≤ v.epoch
  id : ∀ u ∈ past, ∀ q ∈ u.pending, q.id ≤ u.epoch
  frozen : ∀ u ∈ past, ∀ q ∈ u.pending, ∀ p ∈ v.pending, q.id = p.id → q.frozen → p.frozen
  round : ∀ u ∈ past, ∀ q ∈ u.pending, ∀ p ∈ v.pending, q.id = p.id → q.round ≤ p.round

/-- The pending transition counts as done only passes of its id and round that were finished, and
has a participant once it is frozen. -/
structure Counts (finished : List (NodeID × ℕ × ℕ)) (v : View) : Prop where
  done : ∀ p ∈ v.pending, ∀ n ∈ p.done, (n, p.id, p.round) ∈ finished
  staffed : ∀ p ∈ v.pending, p.frozen → p.participants ≠ []

/-- The view is known, and whoever it counts as done has finished the pass. -/
structure Inv (s : State) : Prop where
  mem : s.view ∈ s.past
  known : Known s.past s.view
  counts : Counts s.finished s.view
  reports : ∀ r ∈ s.reports, r.primary = false → (r.node, r.pass.id, r.pass.round) ∈ s.finished

/-- The freeze and the re-freeze leave a participant, and a report of done is applied in the round
of its pass. -/
def sound (s : State) : Action → Bool
  | .change c => (casView c s.view).toOption.all fun v =>
      v.pending.all fun p => !p.frozen || !p.participants.isEmpty
  | .report r => r.primary || s.view.pending.all fun p => p.id ≠ r.id || r.pass.isFor p
  | _ => true

/-- A CAS keeps to what is known of transitions. -/
theorem Known.cas {past : List View} (h : Known past v) (hv : v ∈ past)
    (hu : casView c v = .ok u) : Known (u :: past) u := by
  obtain ⟨bump, hp, he⟩ := pends_casView hu
  have hle : v.epoch ≤ u.epoch := by
    rw [he]
    split_ifs <;> omega
  have hpast : ∀ w ∈ past, ∀ q ∈ w.pending, ∀ p ∈ u.pending, q.id = p.id →
      (q.frozen → p.frozen) ∧ q.round ≤ p.round := by
    intro w hw q hq p hpu hid
    cases hp with
    | none hn => simp [hn] at hpu
    | proposed hn hid' =>
      -- an id above the epoch is one no view has had
      obtain rfl := Option.mem_unique hn hpu
      have h1 := h.id w hw q hq
      have h2 := h.epoch w hw
      omega
    | moved h0 hn hid' hm =>
      obtain rfl := Option.mem_unique hn hpu
      have hf := h.frozen w hw q hq _ h0 (hid.trans hid')
      have hr := h.round w hw q hq _ h0 (hid.trans hid')
      cases hm with
      | kept hf' _ hr' => exact ⟨fun hq => hf'.trans (hf hq), hr' ▸ hr⟩
      | done _ hf' _ hr' => exact ⟨fun hq => hf'.trans (hf hq), hr' ▸ hr⟩
      | freeze _ hf' hr' => exact ⟨fun _ => hf', hr' ▸ hr⟩
      | refreeze _ hf' _ hr' => exact ⟨fun _ => hf', hr' ▸ Nat.le_succ_of_le hr⟩
  refine ⟨fun w hw => ?_, fun w hw q hq => ?_, fun w hw q hq p hpu hid => ?_,
    fun w hw q hq p hpu hid => ?_⟩ <;> rcases List.mem_cons.1 hw with rfl | hw
  · exact le_rfl
  · exact (h.epoch w hw).trans hle
  · cases hp with
    | none hn => simp [hn] at hq
    | proposed hn hid hb =>
      obtain rfl := Option.mem_unique hn hq
      simp [hid, he, hb]
    | moved h0 hn hid =>
      obtain rfl := Option.mem_unique hn hq
      exact hid ▸ (h.id v hv _ h0).trans hle
  · exact h.id w hw q hq
  · exact fun hf => Option.mem_unique hq hpu ▸ hf
  · exact (hpast w hw q hq p hpu hid).1
  · exact (congrArg Pending.round (Option.mem_unique hq hpu)).le
  · exact (hpast w hw q hq p hpu hid).2

theorem Counts.cas {finished : List (NodeID × ℕ × ℕ)} (h : Counts finished v)
    (hu : casView c v = .ok u)
    (hdone : ∀ n p, c = .done n p.id → p ∈ v.pending → (n, p.id, p.round) ∈ finished)
    (hstaff : (∃ id now, c = .freeze id now) ∨ (∃ force now, c = .refreeze force now) →
      ∀ p ∈ u.pending, p.frozen → p.participants ≠ []) : Counts finished u := by
  obtain ⟨bump, hp, -⟩ := pends_casView hu
  cases hp with
  | none hn => exact ⟨by simp [hn], by simp [hn]⟩
  | @proposed p hn hid hb hf hd =>
    refine ⟨fun q hq n hq' => ?_, fun q hq hfq => ?_⟩
    · obtain rfl := Option.mem_unique hn hq
      simp [hd] at hq'
    · obtain rfl := Option.mem_unique hn hq
      simp [hf] at hfq
  | @moved p p' h0 hn hid hm =>
    refine ⟨fun q hq n hq' => ?_, fun q hq hfq => ?_⟩
    · obtain rfl := Option.mem_unique hn hq
      cases hm with
      | kept hf hp hr hd => exact hid ▸ hr ▸ h.done p h0 n (hd ▸ hq')
      | freeze hc hf hr hd => exact hid ▸ hr ▸ h.done p h0 n (hd ▸ hq')
      | refreeze hc hf hd => simp [hd] at hq'
      | @done m hc hf hp hr hd hpd =>
        rw [hd, mem_addID] at hq'
        rw [hid, hr]
        rcases hq' with hq' | rfl
        · exact h.done p h0 n hq'
        · exact hdone n p hc h0
    · have hq0 := hq
      obtain rfl := Option.mem_unique hn hq
      cases hm with
      | kept hf hp => exact hp ▸ h.staffed p h0 (hf ▸ hfq)
      | done hc hf hp => exact hp ▸ h.staffed p h0 (hf ▸ hfq)
      | freeze hc => exact hstaff (.inl hc) _ hq0 hfq
      | refreeze hc => exact hstaff (.inr hc) _ hq0 hfq

theorem Inv.cas (h : Inv s) (hs : (s.cas c).map ({ s with toRegister := · }) = some s')
    (hdone : ∀ n p, c = .done n p.id → p ∈ s.view.pending → (n, p.id, p.round) ∈ s.finished)
    (hstaff : (∃ id now, c = .freeze id now) ∨ (∃ force now, c = .refreeze force now) →
      ∀ p ∈ s'.view.pending, p.frozen → p.participants ≠ []) : Inv s' := by
  obtain ⟨u, hu, rfl⟩ := Register.cas_eq_some hs
  exact ⟨List.mem_cons_self, h.known.cas h.mem hu, h.counts.cas hu hdone hstaff, h.reports⟩

theorem Inv.local (h : Inv s) (hv : s'.view = s.view) (hp : s'.past = s.past)
    (hf : ∀ x ∈ s.finished, x ∈ s'.finished)
    (hr : ∀ r ∈ s'.reports, r ∈ s.reports ∨
      (r.primary = false → (r.node, r.pass.id, r.pass.round) ∈ s'.finished)) : Inv s' := by
  refine ⟨hv ▸ hp ▸ h.mem, hv ▸ hp ▸ h.known, ⟨?_, hv ▸ h.counts.staffed⟩, fun r hr' hprim => ?_⟩
  · rw [hv]
    exact fun p hp n hn => hf _ (h.counts.done p hp n hn)
  · rcases hr r hr' with hr' | hr'
    · exact hf _ (h.reports r hr' hprim)
    · exact hr' hprim

theorem Inv.quiet (h : Inv s) (hv : s'.view = s.view) (hp : s'.past = s.past)
    (hf : s'.finished = s.finished) (hr : s'.reports = s.reports) : Inv s' :=
  h.local hv hp (fun _ hx => hf ▸ hx) fun _ hr' => .inl (hr ▸ hr')

theorem Inv.adoptTransition (h : Inv s) (n : NodeID) (v : View) (p : Pending) :
    Inv (s.adoptTransition n v p) := by
  unfold State.adoptTransition
  split_ifs
  · exact h
  · split <;> exact h.quiet rfl rfl rfl rfl

/-- A sound step keeps the invariant. -/
theorem inv_step (h : Inv s) (hok : sound s a) (hs : step s a = some s') : Inv s' := by
  cases a with
  | change c =>
    simp only [step] at hs
    split_ifs at hs with hfree
    refine h.cas hs (fun n p hc => by simp [hc, free] at hfree) fun _ p hp hf => ?_
    obtain ⟨u, hu, rfl⟩ := Register.cas_eq_some hs
    have hp' : u.pending = some p := hp
    simpa [sound, hu, Except.toOption, hp', hf] using hok
  | drive v now =>
    simp only [step] at hs
    split at hs
    · split_ifs at hs
      exact h.cas hs (by simp) (by simp)
    · cases hs
  | onEpoch n v =>
    simp only [step] at hs
    split at hs
    · split_ifs at hs
      cases hs
      exact h.adoptTransition n v _
    · cases hs
  | committed n v =>
    simp only [step] at hs
    split_ifs at hs
    cases hs
    exact h.quiet rfl rfl rfl rfl
  | look n v =>
    simp only [step] at hs
    split at hs
    · split_ifs at hs
      split at hs
      · cases hs
        exact h.quiet rfl rfl rfl rfl
      · split_ifs at hs
        cases hs
        exact h.quiet rfl rfl rfl rfl
    · cases hs
  | adopt n =>
    simp only [step] at hs
    split at hs
    · split at hs
      · cases hs
        exact (h.adoptTransition n _ _).quiet rfl rfl rfl rfl
      · cases hs
    · cases hs
  | reread n =>
    simp only [step] at hs
    split at hs
    · split_ifs at hs <;> cases hs <;>
        exact h.quiet rfl rfl rfl rfl
    · cases hs
      exact h.quiet rfl rfl rfl rfl
    · cases hs
  | rest n =>
    simp only [step] at hs
    split at hs <;> cases hs
    exact h.quiet rfl rfl rfl rfl
  | primary n =>
    simp only [step] at hs
    split at hs
    · split_ifs at hs
      cases hs
      refine h.local rfl rfl (fun _ hx => hx) fun r hr => ?_
      rcases List.mem_cons.1 hr with rfl | hr
      · exact .inr (by simp)
      · exact .inl hr
    · cases hs
  | finish n =>
    simp only [step] at hs
    split at hs
    · split_ifs at hs
      cases hs
      refine h.local rfl rfl (fun _ hx => List.mem_cons_of_mem _ hx) fun r hr => ?_
      rcases List.mem_cons.1 hr with rfl | hr
      · exact .inr fun _ => List.mem_cons_self
      · exact .inl hr
    · cases hs
  | report r =>
    simp only [step] at hs
    split_ifs at hs with hr
    refine h.cas hs (fun n p hc hp => ?_) ?_
    · cases hprim : r.primary with
      | true => simp [Report.change, hprim] at hc
      | false =>
        -- the report is applied in the round of its pass
        simp only [Report.change, hprim, Bool.false_eq_true, if_false, Change.done.injEq] at hc
        obtain ⟨rfl, hid⟩ := hc
        have hp' : s.view.pending = some p := hp
        have hfor : r.pass.isFor p := by simpa [sound, hprim, hp', hid] using hok
        simp only [Xfer.isFor, decide_eq_true_eq] at hfor
        exact hfor.1 ▸ hfor.2 ▸ h.reports r hr hprim
    · unfold Report.change
      split_ifs <;> simp
  | restart n =>
    cases hs
    exact h.quiet rfl rfl rfl rfl

theorem inv_start (hv : v.pending = none) : Inv (start v) := by
  refine ⟨List.mem_singleton_self v, ⟨?_, ?_, ?_, ?_⟩, ⟨?_, ?_⟩, by simp [start]⟩ <;>
    simp [start, hv]

theorem inv_run {acts : List Action} (hv : v.pending = none)
    (hok : Machine.Along step (fun s a => sound s a) (start v) acts)
    (hrun : s ∈ Machine.run step (start v) acts) : Inv s :=
  Machine.invariant_along (fun _ _ _ h hok hs => inv_step h hok hs) acts (inv_start hv) hok hrun

theorem moves_step (hs : step s a = some s') :
    Log.Moves casView s.view s'.view s.past s'.past := by
  have hcas : ∀ c, (s.cas c).map ({ s with toRegister := · }) = some s' →
      Log.Moves casView s.view s'.view s.past s'.past := by
    intro c hc
    obtain ⟨u, hu, rfl⟩ := Register.cas_eq_some hc
    exact .inr ⟨c, hu, rfl⟩
  have hadopt : ∀ n v p, (s.adoptTransition n v p).toRegister = s.toRegister := by
    intro n v p
    unfold State.adoptTransition
    split_ifs
    · rfl
    · split <;> rfl
  have hsame : ∀ {t : State}, t.toRegister = s.toRegister →
      Log.Moves casView s.view t.view s.past t.past :=
    fun h => .inl ⟨congrArg Register.view h, congrArg Register.past h⟩
  cases a <;> simp only [step] at hs
  case change c =>
    split_ifs at hs
    exact hcas c hs
  case drive v now =>
    split at hs
    · split_ifs at hs
      exact hcas _ hs
    · cases hs
  case report r =>
    split_ifs at hs
    exact hcas _ hs
  case onEpoch n v =>
    split at hs
    · split_ifs at hs
      cases hs
      exact hsame (hadopt n v _)
    · cases hs
  case adopt n =>
    split at hs
    · split at hs
      · cases hs
        exact hsame (hadopt n _ _)
      · cases hs
    · cases hs
  all_goals
    (repeat' split at hs) <;> cases hs <;> exact hsame rfl

/-- The register's views are those of a chain of CASes, as the committed ones of the protocol are.
-/
theorem held_run {acts : List Action} (hr : Machine.run step (start v) acts = some s) :
    Log.Held casView v s.view s.past :=
  .run (fun _ _ _ => moves_step) (Log.held_start casView v) hr

/-- In a run whose freezes leave a participant and whose reports of done are applied in their own
round, a commit makes the pending nodes the placement only once there is a participant and every
one of them has finished its pass for that transition and round. -/
theorem finished_of_commit {acts : List Action} (hv : v.pending = none)
    (hok : Machine.Along step (fun s a => sound s a) (start v) acts)
    (hrun : s ∈ Machine.run step (start v) acts) (hs : step s (.drive u now) = some s') :
    ∃ p, s.view.pending = some p ∧ s'.view.nodes = p.nodes ∧ p.participants ≠ [] ∧
      ∀ n ∈ p.participants, (n, p.id, p.round) ∈ s.finished := by
  have h := inv_run hv hok hrun
  simp only [step] at hs
  split at hs
  · rename_i q hq
    split_ifs at hs with hc
    obtain ⟨w, hw, rfl⟩ := Register.cas_eq_some hs
    obtain ⟨nv, bump, happ, rfl⟩ := casView_ok hw
    simp only [Change.apply, Cluster.commit] at happ
    split at happ
    · cases happ
    · rename_i p hp
      split_ifs at happ with h1 h2
      cases happ
      push Not at h1 h2
      have hf : p.frozen := h.known.frozen u hc.1 q hq p hp h1.1.symm hc.2.1
      exact ⟨p, hp, rfl, h.counts.staffed p hp hf,
        fun n hn => h.counts.done p hp n (h2 n hn)⟩
  · cases hs

namespace Duo

def first : View where
  incarnation := 1
  epoch := 1
  version := 1
  replicas := 2
  minReplicas := 1
  voters := [⟨1, 1⟩]
  nodes := [{ id := 1, weight := 8 }, { id := 2, weight := 8 }]

/-- The weight of member 2 is to change, and the members of `acks` have adopted that. -/
def proposed (acks : List NodeID) : List Action :=
  .change (.nodeChange (.weight 4) 2 0) :: acks.map (.change <| .ack · 2) ++
    [.change (.freeze 2 0)]

/-- A pass from its look to its end. -/
def pass (n : NodeID) (v : View) : List Action :=
  [.look n v, .adopt n, .reread n, .primary n, .finish n]

/-- A report of the transition. -/
def reported (n : NodeID) (round : ℕ) (primary : Bool) : Action :=
  .report ⟨n, 2, primary, ⟨2, round, true, !primary⟩⟩

/-- The view after these actions. -/
def after (acts : List Action) : View :=
  ((Machine.run step (start first) acts).map (·.view)).getD first

/-- Both nodes participate. -/
def proposedTwo : List Action := proposed [1, 2]

/-- Both are through, and have reported. -/
def done : List Action :=
  proposedTwo ++ pass 1 (after proposedTwo) ++ pass 2 (after proposedTwo) ++
    [reported 1 0 false, reported 2 0 false]

/-- Nobody participates. -/
def deserted : List Action := proposed []

/-- A report arrives after the participants were frozen anew. -/
def late : List Action :=
  proposedTwo ++ pass 1 (after proposedTwo) ++
    [reported 1 0 true, .change (.refreeze false 0), reported 1 0 false]

end Duo

theorem finished_of_commit_done : ∃ s ∈ Machine.run step (start Duo.first) Duo.done,
    ∃ p, s.view.pending = some p ∧ p.participants ≠ [] ∧
      ∀ n ∈ p.participants, (n, p.id, p.round) ∈ s.finished := by
  have hok : Machine.Along step (fun s a => sound s a) (start Duo.first) Duo.done := by
    decide +kernel
  have hend : ∃ s ∈ Machine.run step (start Duo.first) Duo.done,
      (step s (.drive s.view 0)).isSome := by
    decide +kernel
  obtain ⟨s, hrun, hs⟩ := hend
  obtain ⟨s', hs'⟩ := Option.isSome_iff_exists.1 hs
  obtain ⟨p, hp, -, hne, hall⟩ := finished_of_commit rfl hok hrun hs'
  exact ⟨s, hrun, p, hp, hne, hall⟩

/-- The commit goes through with no participant, and with a participant that has not finished its
pass of the round. -/
theorem commit_unfinished :
    (∃ s ∈ Machine.run step (start Duo.first) Duo.deserted, ∃ p ∈ s.view.pending,
      p.participants = [] ∧ ∃ s' ∈ step s (.drive s.view 0), s'.view.nodes = p.nodes) ∧
    ∃ s ∈ Machine.run step (start Duo.first) Duo.late, ∃ p ∈ s.view.pending,
      (∃ n ∈ p.participants, (n, p.id, p.round) ∉ s.finished) ∧
        ∃ s' ∈ step s (.drive s.view 0), s'.view.nodes = p.nodes := by
  decide +kernel

end Dstore.Cluster.Transition

import Dstore.Proofs.GcRegister
import Dstore.Sweep

/-!
# Waves, and the nodes they leave out

A wave is released on the word of a value read before. Where whoever releases finds the register at
the wave it read, no more than one wave is at work (`released_le_quarter`). A node does not start a
sweep of an epoch it remembers, also where its report was lost or the epoch is swept anew; where
neither happens it starts as soon as its wave is released (`released_starts`).
-/

namespace Dstore.Sweeps

open Gc (GCState NodeStat Write Later Sane)
open Machine

variable {T : ℤ} {s s' : State} {a : Action} {x y st : GCState} {w : Write} {id : NodeID}

section register

theorem foldl_pos (id : NodeID) : ∀ (l : List NodeID) (k acc : ℕ),
    (id ∉ l ∧ (l.zipIdx k).foldl (fun pos e => if e.1 = id then e.2 else pos) acc = acc) ∨
    ∃ j, l[j]? = some id ∧
      (l.zipIdx k).foldl (fun pos e => if e.1 = id then e.2 else pos) acc = k + j
  | [], k, acc => .inl (by simp)
  | b :: l, k, acc => by
    rw [List.zipIdx_cons, List.foldl_cons]
    by_cases hb : b = id
    · subst hb
      rw [if_pos rfl]
      rcases foldl_pos b l (k + 1) k with ⟨-, h⟩ | ⟨j, hj, h⟩
      · exact .inr ⟨0, rfl, h⟩
      · exact .inr ⟨j + 1, hj, by rw [h]; omega⟩
    · rw [if_neg hb]
      rcases foldl_pos id l (k + 1) acc with ⟨hm, h⟩ | ⟨j, hj, h⟩
      · exact .inl ⟨by simp [hm, Ne.symm hb], h⟩
      · exact .inr ⟨j + 1, hj, by rw [h]; omega⟩

theorem getElem?_posOf {acked : List NodeID} (h : id ∈ acked) :
    acked[posOf id acked]? = some id := by
  rcases foldl_pos id acked 0 0 with ⟨hm, -⟩ | ⟨j, hj, heq⟩
  · exact absurd h hm
  · rw [posOf, heq, Nat.zero_add, hj]

theorem quarterOf_eq (acked : List NodeID) : quarterOf acked = max 1 (acked.length ⌈/⌉ 4) := by
  simp only [quarterOf, Nat.ceilDiv_eq_add_pred_div]
  split_ifs <;> omega

theorem mem_doneIDs : id ∈ doneIDs x ↔ ∃ stat ∈ x.sweepDone, stat.id = id := by
  simp [doneIDs]

/-- What a write that leaves the register in phase `sweep` found there. -/
inductive Sweeping (w : Write) (x y : GCState) : Prop
  | stay (hx : x.phase = .sweep) (he : y.epoch = x.epoch) (ha : y.acked = x.acked)
      (hd : doneIDs x ⊆ doneIDs y)
      (hw : y.sweepWave = x.sweepWave ∨
        y.sweepWave = x.sweepWave + 1 ∧ w = .releaseWave x.epoch)
  | enter (hx : x.phase = .mark) (he : y.epoch = x.epoch) (ha : y.acked = x.acked)
      (hw : y.sweepWave = 1)
  | again (hx : x.phase = .idle) (he : y.epoch = x.lastOK) (ha : y.acked = x.acked)
      (hw : y.sweepWave = 1) (hr : ∃ garbage now, w = .resweep garbage now)

/-- How a write leads to phase `sweep`. -/
theorem sweeping_apply (h : w.apply x = .ok y) (hy : y.phase = .sweep) : Sweeping w x y := by
  cases w with
  | startBarrier nonce tolerate interval now =>
    simp only [Write.apply, Gc.startBarrier] at h
    split_ifs at h
    cases h
    cases hy
  | ack node epoch =>
    simp only [Write.apply, Gc.ack] at h
    split_ifs at h with hc hm <;> cases h <;> simp_all
  | freeze epoch placement now =>
    simp only [Write.apply, Gc.freeze] at h
    split_ifs at h
    cases h
    cases hy
  | enterSweep epoch marked now =>
    simp only [Write.apply, Gc.enterSweep] at h
    split_ifs at h with hc
    cases h
    push Not at hc
    exact .enter hc.2 rfl rfl rfl
  | reportNoMark node epoch =>
    simp only [Write.apply, Gc.reportNoMark] at h
    split_ifs at h with hc
    cases h
    refine .stay hy rfl rfl (fun id hid => ?_) (.inl rfl)
    obtain ⟨stat, hs, rfl⟩ := mem_doneIDs.1 hid
    exact mem_doneIDs.2 ⟨stat, by simp [hs], rfl⟩
  | reportSweep stat epoch =>
    simp only [Write.apply, Gc.reportSweep] at h
    split_ifs at h with hc
    cases h
    refine .stay hy rfl rfl (fun id hid => ?_) (.inl rfl)
    obtain ⟨stat, hs, rfl⟩ := mem_doneIDs.1 hid
    exact mem_doneIDs.2 ⟨stat, by simp [hs], rfl⟩
  | complete epoch =>
    simp only [Write.apply, Gc.complete] at h
    split_ifs at h
    cases h
    cases hy
  | releaseWave epoch =>
    simp only [Write.apply, Gc.releaseWave] at h
    split_ifs at h with hc
    cases h
    push Not at hc
    exact .stay hy rfl rfl (List.Subset.refl _) (.inr ⟨rfl, by rw [hc.1]⟩)
  | abort epoch reason =>
    simp only [Write.apply, Gc.abort] at h
    split_ifs at h
    cases h
    cases hy
  | resweep garbage now =>
    simp only [Write.apply, Gc.resweep] at h
    split_ifs at h with hc
    cases h
    push Not at hc
    exact .again hc.1 rfl rfl rfl ⟨garbage, now, rfl⟩
  | missing | hold | restore =>
    cases h
    exact .stay hy rfl rfl (List.Subset.refl _) (.inl rfl)

theorem barrier_wave (hx : x.phase = .barrier → x.sweepWave = 0) (h : w.apply x = .ok y) :
    y.phase = .barrier → y.sweepWave = 0 := by
  cases w <;> simp only [Write.apply, Gc.startBarrier, Gc.ack, Gc.freeze, Gc.enterSweep,
    Gc.reportNoMark, Gc.reportSweep, Gc.complete, Gc.releaseWave, Gc.abort, Gc.resweep] at h <;>
    grind

theorem nodup_acked (hx : x.acked.Nodup) (h : w.apply x = .ok y) : y.acked.Nodup := by
  cases w <;> simp only [Write.apply, Gc.startBarrier, Gc.ack, Gc.freeze, Gc.enterSweep,
    Gc.reportNoMark, Gc.reportSweep, Gc.complete, Gc.releaseWave, Gc.abort, Gc.resweep] at h <;>
    grind

end register

/-- A write that a sweep makes. -/
def report : Write → Bool
  | .reportNoMark .. | .reportSweep .. => true
  | _ => false

/-- The register is sane, and later than all its past. -/
structure Kept (s : State) : Prop where
  here : s.reg ∈ s.past
  sane : Sane s.reg
  nodup : s.reg.acked.Nodup
  later : ∀ st ∈ s.past, Later st s.reg
  barrier : ∀ st ∈ s.past, st.phase = .barrier → st.sweepWave = 0
  sent : ∀ w ∈ s.sent, report w

/-- The write that an action tries. -/
inductive Casts (T : ℤ) (s : State) : Action → Write → Prop
  | outside (w : Write) (h : outside w) : Casts T s (.write w) w
  | observe (st : GCState) (now : ℤ) (w : Write) (hst : st ∈ s.past)
      (h : observeSweep T now st = some w) : Casts T s (.observe st now) w
  | land (i : ℕ) (w : Write) (h : w ∈ s.sent) : Casts T s (.land i) w

/-- What an action does to a node's memory. -/
inductive Local (s : State) : Action → NodeID → Node → Prop
  | poll (id : NodeID) (st : GCState) (hst : st ∈ s.past) (hf : (s.nodes id).finds id st) :
      Local s (.poll id st) id { s.nodes id with due := st.epoch :: (s.nodes id).due }
  | start (id : NodeID) (e : ℕ) (he : e ∈ (s.nodes id).due) :
      Local s (.start id e) id { s.nodes id with
        due := (s.nodes id).due.erase e
        sweeping := true
        runs := { epoch := e } :: (s.nodes id).runs }
  | noMark (id : NodeID) (i : ℕ) (r : Run) (hr : (s.nodes id).runs[i]? = some r)
      (hs : r.stage = .begun) :
      Local s (.noMark id i) id { s.nodes id with
        runs := (s.nodes id).runs.set i { r with noMark := true, stage := .reporting } }
  | swept (id : NodeID) (i : ℕ) (stat : NodeStat) (r : Run) (hr : (s.nodes id).runs[i]? = some r)
      (hs : r.stage = .begun) :
      Local s (.swept id i stat) id { s.nodes id with
        swept := r.epoch :: (s.nodes id).swept
        runs := (s.nodes id).runs.set i { r with stage := .reporting } }
  | returned (id : NodeID) (i : ℕ) (r : Run) (hr : (s.nodes id).runs[i]? = some r)
      (hs : r.stage = .reporting) :
      Local s (.returned id i) id { s.nodes id with
        swept := if r.noMark then r.epoch :: (s.nodes id).swept else (s.nodes id).swept
        runs := (s.nodes id).runs.set i { r with stage := .returned } }
  | finish (id : NodeID) (i : ℕ) (r : Run) (hr : (s.nodes id).runs[i]? = some r)
      (hs : r.stage = .returned) :
      Local s (.finish id i) id { s.nodes id with
        sweeping := false
        runs := (s.nodes id).runs.eraseIdx i }
  | restart (id : NodeID) : Local s (.restart id) id {}

/-- What a step does to the register, its past and the nodes: nothing, one write of the register,
or one step of a node. -/
inductive Stepped (T : ℤ) (s : State) (a : Action) (s' : State) : Prop
  | same (hr : s'.reg = s.reg) (hp : s'.past = s.past) (hn : s'.nodes = s.nodes)
  | write (w : Write) (hw : Casts T s a w) (hy : w.apply s.reg = .ok s'.reg)
      (hp : s'.past = s'.reg :: s.past) (hn : s'.nodes = s.nodes)
  | node (id : NodeID) (node : Node) (hl : Local s a id node) (hr : s'.reg = s.reg)
      (hp : s'.past = s.past) (hn : s'.nodes = Function.update s.nodes id node)

theorem cas_cases (s : State) (w : Write) :
    s.cas w = s ∨ ∃ y, w.apply s.reg = .ok y ∧ s.cas w = { s with reg := y, past := y :: s.past } := by
  unfold State.cas
  split
  · rename_i y hy
    exact .inr ⟨y, hy, rfl⟩
  · exact .inl rfl

theorem stepped_cas {u : State} (hw : Casts T s a w) (hr : u.reg = s.reg) (hp : u.past = s.past)
    (hn : u.nodes = s.nodes) (h : u.cas w = s') : Stepped T s a s' := by
  subst h
  rcases cas_cases u w with heq | ⟨y, hy, heq⟩
  · rw [heq]
    exact .same hr hp hn
  · rw [heq]
    exact .write w hw (hr ▸ hy) (by rw [hp]) hn

/-- A step is a CAS, or one of a node's own. -/
theorem stepped (h : step T s a = some s') : Stepped T s a s' := by
  cases a with
  | write w =>
    simp only [step] at h
    split_ifs at h with hw
    exact stepped_cas (.outside w hw) rfl rfl rfl (Option.some.inj h)
  | observe st now =>
    simp only [step] at h
    split_ifs at h with hst
    split at h
    · rename_i w hw
      exact stepped_cas (.observe st now w hst hw) rfl rfl rfl (Option.some.inj h)
    · cases h
      exact .same rfl rfl rfl
  | land i =>
    simp only [step] at h
    split at h
    · simp at h
    · rename_i w hw
      exact stepped_cas (u := { s with sent := s.sent.eraseIdx i })
        (.land i w (List.mem_of_getElem? hw)) rfl rfl rfl (Option.some.inj h)
  | poll id st =>
    simp only [step] at h
    split_ifs at h with hst hf
    · cases h
      exact .node id _ (.poll id st hst hf) rfl rfl rfl
    · cases h
      exact .same rfl rfl rfl
  | start id e =>
    simp only [step] at h
    split_ifs at h with he
    cases h
    exact .node id _ (.start id e he) rfl rfl rfl
  | noMark id i =>
    simp only [step] at h
    split at h
    · simp at h
    · rename_i r hr
      split_ifs at h with hs
      cases h
      exact .node id _ (.noMark id i r hr hs) rfl rfl rfl
  | swept id i stat =>
    simp only [step] at h
    split at h
    · simp at h
    · rename_i r hr
      split_ifs at h with hs
      cases h
      exact .node id _ (.swept id i stat r hr hs) rfl rfl rfl
  | returned id i =>
    simp only [step] at h
    split at h
    · simp at h
    · rename_i r hr
      split at h
      · rename_i hs
        cases h
        exact .node id _ (.returned id i r hr hs) rfl rfl rfl
      · simp at h
  | finish id i =>
    simp only [step] at h
    split at h
    · simp at h
    · rename_i r hr
      split_ifs at h with hs
      cases h
      exact .node id _ (.finish id i r hr hs) rfl rfl rfl
  | restart id =>
    cases h
    exact .node id _ (.restart id) rfl rfl rfl

/-- The register's values are those of a list of writes, as the committed ones of the protocol
are. -/
theorem held_run {acts : List Action} (hr : Machine.run (step T) {} acts = some s) :
    Log.Held Write.apply {} s.reg s.past := by
  have hmoves : ∀ s a s', step T s a = some s' →
      Log.Moves Write.apply s.reg s'.reg s.past s'.past := by
    intro s a s' hs
    cases stepped hs with
    | same hr hp hn => exact .inl ⟨hr, hp⟩
    | write w hw hy hp hn => exact .inr ⟨w, hy, hp⟩
    | node id node hl hr hp hn => exact .inl ⟨hr, hp⟩
  exact .run hmoves (Log.held_start Write.apply {}) hr

theorem step_sent (h : step T s a = some s') : ∀ w ∈ s'.sent, w ∈ s.sent ∨ report w := by
  have hcas : ∀ (u : State) w, (u.cas w).sent = u.sent := by
    intro u w
    rcases cas_cases u w with heq | ⟨y, -, heq⟩ <;> rw [heq]
  cases a <;> simp only [step] at h <;>
    grind [State.setNode, report, List.mem_of_mem_eraseIdx]

theorem Kept.step (hk : Kept s) (h : step T s a = some s') : Kept s' := by
  have hsent : ∀ w ∈ s'.sent, report w := fun w hw => (step_sent h w hw).elim (hk.sent w) id
  have hsame : s'.reg = s.reg → s'.past = s.past → Kept s' := fun hr hp =>
    ⟨by rw [hr, hp]; exact hk.here, hr ▸ hk.sane, hr ▸ hk.nodup, by rw [hr, hp]; exact hk.later,
      hp ▸ hk.barrier, hsent⟩
  cases stepped h with
  | same hr hp => exact hsame hr hp
  | node id node hl hr hp => exact hsame hr hp
  | write w hw hy hp =>
    have hl : Later s.reg s'.reg := (Gc.moves_apply hy).later hk.sane
    refine ⟨by rw [hp]; simp, Gc.sane_apply w _ _ hk.sane hy, nodup_acked hk.nodup hy,
      fun st hst => ?_, fun st hst => ?_, hsent⟩ <;> rw [hp] at hst <;>
      rcases List.mem_cons.1 hst with rfl | hst
    · exact .refl _
    · exact (hk.later st hst).trans hl
    · exact barrier_wave (hk.barrier _ hk.here) hy
    · exact hk.barrier st hst

theorem kept_start : Kept {} where
  here := by simp
  sane _ := rfl
  nodup := by simp
  later st hst := by
    rw [List.mem_singleton.1 hst]
    exact .refl _
  barrier st hst := by simp [List.mem_singleton.1 hst]
  sent := by simp

section waves

/-- All of the earlier waves have reported. -/
def Waves (x : GCState) : Prop :=
  x.phase = .sweep → 1 ≤ x.sweepWave ∧ ∀ id ∈ x.acked,
    posOf id x.acked < (x.sweepWave - 1) * quarterOf x.acked → id ∈ doneIDs x

/-- The released nodes that have not reported. -/
def unreported (x : GCState) : List NodeID :=
  x.acked.filter fun id => Released x id ∧ id ∉ doneIDs x

/-- Who releases a wave finds the register at the wave it read, in the sweep it read. -/
def InTurn (T : ℤ) (s : State) : Action → Prop
  | .observe st now => observeSweep T now st = some (.releaseWave st.epoch) →
    s.reg.phase = .sweep → s.reg.epoch = st.epoch →
      s.reg.sweepWave = st.sweepWave ∧ doneIDs st ⊆ doneIDs s.reg
  | _ => True

instance (T : ℤ) (s : State) (a : Action) : Decidable (InTurn T s a) := by
  unfold InTurn
  split <;> infer_instance

theorem waves_apply (hx : Waves x) (h : w.apply x = .ok y)
    (hrel : w = .releaseWave x.epoch → x.phase = .sweep →
      ∀ id ∈ x.acked, Released x id → id ∈ doneIDs x) : Waves y := by
  intro hy
  cases sweeping_apply h hy with
  | stay hp he ha hd hw =>
    obtain ⟨hpos, hdone⟩ := hx hp
    rw [ha]
    rcases hw with hw | ⟨hw, hr⟩
    · rw [hw]
      exact ⟨hpos, fun id hid hlt => hd (hdone id hid hlt)⟩
    · rw [hw]
      exact ⟨by omega, fun id hid hlt => hd (hrel hr hp id hid hlt)⟩
  | enter hp he ha hw => simp [hw]
  | again hp he ha hw => simp [hw]

theorem reported_of_release {now : ℤ} {e : ℕ}
    (h : observeSweep T now st = some (.releaseWave e)) :
    e = st.epoch ∧ ∀ id ∈ st.acked, Released st id → id ∈ doneIDs st := by
  simp only [observeSweep] at h
  split_ifs at h with h1 h2
  · simp at h
  refine ⟨by simpa using h.symm, fun id hid hlt => ?_⟩
  obtain ⟨k, hk⟩ : ∃ k, k = min (st.sweepWave * quarterOf st.acked) st.acked.length := ⟨_, rfl⟩
  rw [← hk] at h2
  have hall : (st.acked.take k).filter (· ∈ doneIDs st) = st.acked.take k := by
    refine List.filter_sublist.eq_of_length_le ?_
    rw [List.length_take]
    omega
  have hpos := getElem?_posOf hid
  have hlen : posOf id st.acked < st.acked.length := (List.getElem?_eq_some_iff.1 hpos).1
  have hmem : id ∈ st.acked.take k := by
    refine List.mem_of_getElem? (i := posOf id st.acked) ?_
    rw [List.getElem?_take_of_lt, hpos]
    unfold Released at hlt
    omega
  rw [← hall] at hmem
  simpa using (List.mem_filter.1 hmem).2

theorem Waves.step (hk : Kept s) (hw : Waves s.reg) (hok : InTurn T s a)
    (h : step T s a = some s') : Waves s'.reg := by
  cases stepped h with
  | same hr => exact hr ▸ hw
  | node id node hl hr => exact hr ▸ hw
  | write w hc hy =>
    refine waves_apply hw hy fun hr hp id hid hrel => ?_
    subst hr
    cases hc with
    | outside _ hout => exact absurd hout (by simp [outside])
    | land i _ h => exact absurd (hk.sent _ h) (by simp [report])
    | observe st now _ hst h =>
      obtain ⟨he, hdone⟩ := reported_of_release h
      obtain ⟨hwave, hsub⟩ := hok (he ▸ h) hp he
      -- a wave is out in the value read, so its acked set was frozen by then
      have hnb : st.phase ≠ .barrier := fun hb => by
        have := hk.barrier st hst hb
        have := (hw hp).1
        omega
      have ha := ((hk.later st hst).acked he.symm hnb).2
      refine hsub (hdone id (ha ▸ hid) ?_)
      unfold Released at hrel ⊢
      rwa [← ha, ← hwave]

theorem unreported_le (hn : x.acked.Nodup) (hw : Waves x) (hp : x.phase = .sweep) :
    (unreported x).length ≤ quarterOf x.acked := by
  obtain ⟨hpos, hdone⟩ := hw hp
  set q := quarterOf x.acked with hq
  have hinj : ((unreported x).map (posOf · x.acked)).Nodup := by
    refine (List.nodup_map_iff_inj_on (hn.filter _)).2 fun i hi j hj heq => ?_
    have h1 := getElem?_posOf (List.mem_of_mem_filter hi)
    have h2 := getElem?_posOf (List.mem_of_mem_filter hj)
    rw [heq, h2] at h1
    exact (Option.some.inj h1).symm
  have hsub : ((unreported x).map (posOf · x.acked)).toFinset ⊆
      Finset.Ico ((x.sweepWave - 1) * q) ((x.sweepWave - 1) * q + q) := by
    intro p hp
    obtain ⟨id, hid, rfl⟩ := List.mem_map.1 (List.mem_toFinset.1 hp)
    obtain ⟨hmem, hrel⟩ := List.mem_filter.1 hid
    rw [decide_eq_true_eq, Released] at hrel
    have hmul : (x.sweepWave - 1) * q + q = x.sweepWave * q := by
      rw [← Nat.succ_mul, Nat.succ_eq_add_one, Nat.sub_add_cancel hpos]
    rw [Finset.mem_Ico, hmul]
    exact ⟨not_lt.1 fun hlt => hrel.2 (hdone id hmem hlt), hrel.1⟩
  have hcard := Finset.card_le_card hsub
  rw [List.toFinset_card_of_nodup hinj, List.length_map, Nat.card_Ico] at hcard
  omega

/-- No more than a quarter of the acked nodes, and one at least, are released and have not reported,
in every run where waves are released in turn. -/
theorem released_le_quarter {as : List Action} (hok : Along (step T) (InTurn T) {} as)
    (hrun : run (step T) {} as = some s) (hp : s.reg.phase = .sweep) :
    (unreported s.reg).length ≤ max 1 (s.reg.acked.length ⌈/⌉ 4) := by
  have hi : Kept s ∧ Waves s.reg :=
    invariant_along (P := fun s => Kept s ∧ Waves s.reg)
      (fun _ _ _ hi hok h => ⟨hi.1.step h, hi.2.step hi.1 hok h⟩) as
      ⟨kept_start, fun h => by simp at h⟩ hok hrun
  rw [← quarterOf_eq]
  exact unreported_le hi.1.nodup hi.2 hp

/-- The register after these actions. -/
def after (as : List Action) : GCState := ((run (step 100) {} as).getD {}).reg

/-- Further actions that use the register's value. -/
def extend (as : List Action) (f : GCState → List Action) : List Action := as ++ f (after as)

/-- A cycle of these nodes up to its sweep. -/
def entered (ids : List NodeID) : List Action :=
  [.write (.startBarrier [] false 0 5)] ++ ids.map (fun id => .write (.ack id 1)) ++
    [.write (.freeze 1 [] 6), .write (.enterSweep 1 [] 7)]

/-- The sweep of one node, whose report may get lost. -/
def sweepOf (id : NodeID) (lands : Bool) (st : GCState) : List Action :=
  [.poll id st, .start id 1, .swept id 0 ⟨id, 0, 0, 0, 0, false, 0, 0⟩] ++
    (if lands then [.land 0] else []) ++ [.returned id 0, .finish id 0]

/-- The first of three nodes has swept. -/
def firstSwept : List Action := extend (entered [1, 2, 3]) (sweepOf 1 true)

theorem released_le_quarter_second :
    ∃ s ∈ run (step 100) {} (extend firstSwept fun st => [.observe st 8]),
      s.reg.phase = .sweep ∧ s.reg.sweepWave = 2 ∧ unreported s.reg = [2] ∧
        (unreported s.reg).length ≤ max 1 (s.reg.acked.length ⌈/⌉ 4) := by
  have hok : Along (step 100) (InTurn 100) {} (extend firstSwept fun st => [.observe st 8]) := by
    decide +kernel
  have hend : ∃ s ∈ run (step 100) {} (extend firstSwept fun st => [.observe st 8]),
      s.reg.phase = .sweep ∧ s.reg.sweepWave = 2 ∧ unreported s.reg = [2] := by
    decide +kernel
  obtain ⟨s, hrun, hp, hwave, hun⟩ := hend
  exact ⟨s, hrun, hp, hwave, hun, released_le_quarter hok hrun hp⟩

/-- Two observers that saw the first wave of three nodes done release the second and the third. -/
theorem two_waves_released :
    ∃ s ∈ run (step 100) {} (extend firstSwept fun st => [.observe st 8, .observe st 8]),
      s.reg.phase = .sweep ∧ 8 - s.reg.snapshotAt ≤ 100 ∧ unreported s.reg = [2, 3] ∧
        max 1 (s.reg.acked.length ⌈/⌉ 4) = 1 := by
  decide +kernel

end waves

section memory

variable {node : Node} {reg : GCState} {past : List GCState} {e i : ℕ} {r r' : Run}

/-- A sweep of the epoch is still to return. -/
def Owed (runs : List Run) (e : ℕ) : Prop := ∃ r ∈ runs, r.epoch = e ∧ r.stage ≠ .returned

instance (runs : List Run) (e : ℕ) : Decidable (Owed runs e) :=
  inferInstanceAs (Decidable (∃ r ∈ runs, _))

/-- An epoch is swept anew only where no acked node remembers it, and a report that returns while
the register is in its sweep is in it; in both, unless another sweep of the node is to report. -/
def Heeded (s : State) : Action → Prop
  | .write (.resweep _ _) => s.reg.phase = .idle → ∀ id ∈ s.reg.acked,
    s.reg.lastOK ∈ (s.nodes id).swept → Owed (s.nodes id).runs s.reg.lastOK
  | .returned id i => ∀ r ∈ (s.nodes id).runs[i]?, s.reg.phase = .sweep → s.reg.epoch = r.epoch →
    id ∈ s.reg.acked → id ∈ doneIDs s.reg ∨ Owed ((s.nodes id).runs.eraseIdx i) r.epoch
  | _ => True

instance (s : State) (a : Action) : Decidable (Heeded s a) := by
  unfold Heeded
  split <;> infer_instance

/-- A node remembers only sweeps that were, and one that is only if it has reported or will. -/
structure NodeOk (reg : GCState) (past : List GCState) (id : NodeID) (node : Node) : Prop where
  seen : ∀ e, e ∈ node.swept ∨ e ∈ node.due ∨ e ∈ node.runs.map Run.epoch →
    ∃ st ∈ past, st.epoch = e ∧ st.phase = .sweep
  flag : node.sweeping → node.runs ≠ []
  memory : reg.phase = .sweep → id ∈ reg.acked → reg.epoch ∈ node.swept →
    id ∈ doneIDs reg ∨ Owed node.runs reg.epoch

theorem nodeOk_new : NodeOk reg past id {} := ⟨by simp, by simp, by simp⟩

theorem mem_epochs_of_set (h : e ∈ (node.runs.set i r').map Run.epoch)
    (hr : node.runs[i]? = some r) (he : r'.epoch = r.epoch) : e ∈ node.runs.map Run.epoch := by
  obtain ⟨u, hu, rfl⟩ := List.mem_map.1 h
  rcases List.mem_or_eq_of_mem_set hu with hu | rfl
  · exact List.mem_map_of_mem hu
  · exact he ▸ List.mem_map_of_mem (List.mem_of_getElem? hr)

theorem Owed.set (hr : node.runs[i]? = some r) (he : r'.epoch = r.epoch)
    (hs : r'.stage ≠ .returned) (h : Owed node.runs e) : Owed (node.runs.set i r') e := by
  obtain ⟨u, hu, hue, hus⟩ := h
  obtain ⟨j, hj⟩ := List.mem_iff_getElem?.1 hu
  by_cases hij : i = j
  · subst hij
    rw [hr, Option.some.injEq] at hj
    subst hj
    exact ⟨r', List.mem_set (List.getElem?_eq_some_iff.1 hr).1 r', he.trans hue, hs⟩
  · exact ⟨u, List.mem_of_getElem? (by rw [List.getElem?_set_ne hij, hj]), hue, hus⟩

theorem owed_set_of_erase (h : Owed (node.runs.eraseIdx i) e) : Owed (node.runs.set i r') e := by
  obtain ⟨u, hu, hue, hus⟩ := h
  obtain ⟨j, hij, hj⟩ := List.mem_eraseIdx_iff_getElem?.1 hu
  exact ⟨u, List.mem_of_getElem? (by rw [List.getElem?_set_ne (Ne.symm hij), hj]), hue, hus⟩

theorem Owed.erase (hr : node.runs[i]? = some r) (hn : r.epoch ≠ e ∨ r.stage = .returned)
    (h : Owed node.runs e) : Owed (node.runs.eraseIdx i) e := by
  obtain ⟨u, hu, hue, hus⟩ := h
  obtain ⟨j, hj⟩ := List.mem_iff_getElem?.1 hu
  refine ⟨u, List.mem_eraseIdx_iff_getElem?.2 ⟨j, ?_, hj⟩, hue, hus⟩
  rintro rfl
  rw [hr, Option.some.injEq] at hj
  subst hj
  exact hn.elim (fun h => h hue) hus

theorem NodeOk.write (hk : Kept s) (hn : NodeOk s.reg s.past id node) (hy : w.apply s.reg = .ok y)
    (hres : ∀ g t, w = .resweep g t → s.reg.phase = .idle → id ∈ s.reg.acked →
      s.reg.lastOK ∈ node.swept → Owed node.runs s.reg.lastOK) :
    NodeOk y (y :: s.past) id node := by
  refine ⟨fun e he => ?_, hn.flag, fun hp hid hmem => ?_⟩
  · obtain ⟨st, hst, h⟩ := hn.seen e he
    exact ⟨st, List.mem_cons_of_mem _ hst, h⟩
  cases sweeping_apply hy hp with
  | stay hx he ha hd =>
    rw [he] at hmem ⊢
    exact (hn.memory hx (ha ▸ hid) hmem).imp_left fun h => hd h
  | enter hx he =>
    -- the epoch has not been swept, so the node does not remember it
    obtain ⟨st, hst, hse, hsp⟩ := hn.seen _ (.inl hmem)
    have := (hk.later st hst).swept (hse.trans he) (.inl hsp)
    simp [hx] at this
  | again hx he ha hw hr =>
    obtain ⟨g, t, rfl⟩ := hr
    rw [he] at hmem ⊢
    exact .inr (hres g t rfl hx (ha ▸ hid) hmem)

/-- A node's own step keeps what it remembers. -/
theorem NodeOk.local (hn : NodeOk s.reg s.past id (s.nodes id)) (hl : Local s a id node)
    (hok : Heeded s a) : NodeOk s.reg s.past id node := by
  obtain ⟨hseen, hflag, hmem⟩ := hn
  have hrun : ∀ {i : ℕ} {r : Run}, (s.nodes id).runs[i]? = some r →
      ∃ st ∈ s.past, st.epoch = r.epoch ∧ st.phase = .sweep := fun hr =>
    hseen _ (.inr (.inr (List.mem_map_of_mem (List.mem_of_getElem? hr))))
  cases hl with
  | poll _ st hst hf =>
    refine ⟨fun e he => ?_, hflag, hmem⟩
    rcases he with he | he | he
    · exact hseen e (.inl he)
    · rcases List.mem_cons.1 he with rfl | he
      · refine ⟨st, hst, rfl, ?_⟩
        by_contra hne
        simp [Node.finds, hne] at hf
      · exact hseen e (.inr (.inl he))
    · exact hseen e (.inr (.inr he))
  | start _ e' he' =>
    refine ⟨fun e he => ?_, by simp, fun hp hid he => ?_⟩
    · rcases he with he | he | he
      · exact hseen e (.inl he)
      · exact hseen e (.inr (.inl (List.mem_of_mem_erase he)))
      · rcases List.mem_cons.1 he with rfl | he
        · exact hseen _ (.inr (.inl he'))
        · exact hseen e (.inr (.inr he))
    · refine (hmem hp hid he).imp_right ?_
      rintro ⟨r, hr, h⟩
      exact ⟨r, List.mem_cons_of_mem _ hr, h⟩
  | noMark _ i r hr hs =>
    refine ⟨fun e he => ?_, fun hf => ?_, fun hp hid he => ?_⟩
    · rcases he with he | he | he
      · exact hseen e (.inl he)
      · exact hseen e (.inr (.inl he))
      · exact hseen e (.inr (.inr (mem_epochs_of_set he hr rfl)))
    · simpa using hflag hf
    · exact (hmem hp hid he).imp_right (.set hr rfl (by simp))
  | swept _ i stat r hr hs =>
    refine ⟨fun e he => ?_, fun hf => ?_, fun hp hid he => ?_⟩
    · rcases he with he | he | he
      · rcases List.mem_cons.1 he with rfl | he
        · exact hrun hr
        · exact hseen e (.inl he)
      · exact hseen e (.inr (.inl he))
      · exact hseen e (.inr (.inr (mem_epochs_of_set he hr rfl)))
    · simpa using hflag hf
    · rcases List.mem_cons.1 he with heq | he
      · -- its own report is to come
        exact .inr ⟨_, List.mem_set (List.getElem?_eq_some_iff.1 hr).1 _, heq.symm, by simp⟩
      · exact (hmem hp hid he).imp_right (.set hr rfl (by simp))
  | returned _ i r hr hs =>
    have hswept : ∀ e, e ∈ (if r.noMark then r.epoch :: (s.nodes id).swept
        else (s.nodes id).swept) → e = r.epoch ∨ e ∈ (s.nodes id).swept := by
      intro e he
      split_ifs at he
      · exact List.mem_cons.1 he
      · exact .inr he
    refine ⟨fun e he => ?_, fun hf => ?_, fun hp hid he => ?_⟩
    · rcases he with he | he | he
      · rcases hswept e he with rfl | he
        · exact hrun hr
        · exact hseen e (.inl he)
      · exact hseen e (.inr (.inl he))
      · exact hseen e (.inr (.inr (mem_epochs_of_set he hr rfl)))
    · simpa using hflag hf
    · by_cases heq : s.reg.epoch = r.epoch
      · rw [heq]
        exact (hok r hr hp heq hid).imp_right owed_set_of_erase
      · have he := (hswept _ he).resolve_left heq
        exact (hmem hp hid he).imp_right fun h =>
          owed_set_of_erase (h.erase hr (.inl (Ne.symm heq)))
  | finish _ i r hr hs =>
    refine ⟨fun e he => ?_, by simp, fun hp hid he => ?_⟩
    · refine hseen e (he.imp_right (Or.imp_right fun he => ?_))
      obtain ⟨u, hu, rfl⟩ := List.mem_map.1 he
      exact List.mem_map_of_mem (List.mem_of_mem_eraseIdx hu)
    · exact (hmem hp hid he).imp_right fun h => h.erase hr (.inr hs)
  | restart => exact nodeOk_new

/-- Every step keeps what the nodes remember. -/
theorem nodeOk_step (hk : Kept s) (hn : ∀ id, NodeOk s.reg s.past id (s.nodes id))
    (hok : Heeded s a) (h : step T s a = some s') (id : NodeID) :
    NodeOk s'.reg s'.past id (s'.nodes id) := by
  cases stepped h with
  | same hr hp hn' =>
    rw [hr, hp, hn']
    exact hn id
  | write w hc hy hp hn' =>
    rw [hp, hn']
    refine (hn id).write hk hy fun g t hw hidle hid hmem => ?_
    subst hw
    cases hc with
    | outside => exact hok hidle id hid hmem
    | land i _ h => exact absurd (hk.sent _ h) (by simp [report])
    | observe st now _ hst h =>
      simp only [observeSweep] at h
      split_ifs at h <;> simp at h
  | node j node hl hr hp hn' =>
    rw [hr, hp, hn']
    by_cases hj : id = j
    · subst hj
      rw [Function.update_self]
      exact (hn id).local hl hok
    · rw [Function.update_of_ne hj]
      exact hn id

theorem start_begins (T : ℤ) (h : e ∈ (s.nodes id).due) :
    ∃ s', step T s (.start id e) = some s' ∧ { epoch := e } ∈ (s'.nodes id).runs := by
  simp only [step, if_pos h]
  exact ⟨_, rfl, by simp [State.setNode]⟩

/-- In every run where no epoch is swept anew by nodes that remember it and no report is lost to its
sweep, an acked node that is released, is not sweeping and has not reported starts the sweep when it
polls. -/
theorem released_starts {as : List Action} (hok : Along (step T) Heeded {} as)
    (hrun : run (step T) {} as = some s) (hp : s.reg.phase = .sweep) (hid : id ∈ s.reg.acked)
    (hrel : Released s.reg id) (hidle : (s.nodes id).runs = []) (hnot : id ∉ doneIDs s.reg) :
    ∃ s₁ s₂, step T s (.poll id s.reg) = some s₁ ∧ step T s₁ (.start id s.reg.epoch) = some s₂ ∧
      { epoch := s.reg.epoch } ∈ (s₂.nodes id).runs := by
  obtain ⟨hk, hn⟩ : Kept s ∧ ∀ id, NodeOk s.reg s.past id (s.nodes id) :=
    invariant_along (P := fun s => Kept s ∧ ∀ id, NodeOk s.reg s.past id (s.nodes id))
      (fun _ _ _ hi hok h => ⟨hi.1.step h, nodeOk_step hi.1 hi.2 hok h⟩) as
      ⟨kept_start, fun _ => nodeOk_new⟩ hok hrun
  have hfree : (s.nodes id).sweeping = false := by
    by_contra hs
    exact (hn id).flag (by simpa using hs) hidle
  have hforgot : s.reg.epoch ∉ (s.nodes id).swept := by
    intro hs
    rcases (hn id).memory hp hid hs with h | ⟨r, hr, -⟩
    · exact hnot h
    · simp [hidle] at hr
  have hf : (s.nodes id).finds id s.reg := by
    simp [Node.finds, hp, hid, hfree, hforgot, hnot, hrel]
  have hpoll : step T s (.poll id s.reg) =
      some (s.setNode id { s.nodes id with due := s.reg.epoch :: (s.nodes id).due }) := by
    simp [step, hk.here, hf]
  have hdue : s.reg.epoch ∈ ((s.setNode id { s.nodes id with
      due := s.reg.epoch :: (s.nodes id).due }).nodes id).due := by
    simp [State.setNode]
  obtain ⟨s₂, hstart, hbegun⟩ := start_begins T hdue
  exact ⟨_, s₂, hpoll, hstart, hbegun⟩

/-- A node that has swept, and a second round of the same epoch. -/
def sweptAgain (between : List Action) : List Action :=
  extend (extend (entered [1]) (sweepOf 1 true)) fun st =>
    [.observe st 8] ++ between ++ [.write (.resweep 0 9)]

/-- A node that was restarted sweeps an epoch again. -/
theorem released_starts_restarted :
    ∃ s ∈ run (step 100) {} (sweptAgain [.restart 1]), s.reg.phase = .sweep ∧ doneIDs s.reg = [] ∧
      ∃ s₁ s₂, step 100 s (.poll 1 s.reg) = some s₁ ∧
        step 100 s₁ (.start 1 s.reg.epoch) = some s₂ ∧
        { epoch := s.reg.epoch } ∈ (s₂.nodes 1).runs := by
  have hok : Along (step 100) Heeded {} (sweptAgain [.restart 1]) := by decide +kernel
  have hend : ∃ s ∈ run (step 100) {} (sweptAgain [.restart 1]), s.reg.phase = .sweep ∧
      doneIDs s.reg = [] ∧ 1 ∈ s.reg.acked ∧ Released s.reg 1 ∧ (s.nodes 1).runs = [] := by
    decide +kernel
  obtain ⟨s, hrun, hp, hd, hid, hrel, hidle⟩ := hend
  exact ⟨s, hrun, hp, hd, released_starts hok hrun hp hid hrel hidle (by simp [hd])⟩

/-- The run ends in a sweep for which node 1 is released, not sweeping and not done, and which it
does not start. -/
def LeavesOut (as : List Action) : Prop :=
  ∃ s ∈ run (step 100) {} as, s.reg.phase = .sweep ∧ 1 ∈ s.reg.acked ∧ Released s.reg 1 ∧
    (s.nodes 1).sweeping = false ∧ (s.nodes 1).runs = [] ∧ 1 ∉ doneIDs s.reg ∧
    (s.nodes 1).finds 1 s.reg = false

/-- A node that swept the epoch leaves out its second sweep, and one whose report was lost the rest
of the first. -/
theorem node_left_out :
    LeavesOut (sweptAgain []) ∧ LeavesOut (extend (entered [1]) (sweepOf 1 false)) := by
  unfold LeavesOut
  decide +kernel

end memory

end Dstore.Sweeps

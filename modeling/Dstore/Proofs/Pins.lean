import Dstore.Pins

/-!
# The pin rule

A key that a gate found present at time `t`, at count `c`, is pinned with `c`. The marks of count
`c` and `c + 1` honour the pin, and the mark of count `c + 2` has its roots from `t + putTTL` or
later. This needs barriers that are spaced as `handleBarrier` checks them, pins that only an older
stamp is dropped for, and sweeps that run one at a time; the code gives none of them up to a race
(`unraced`).
-/

namespace Dstore.Pins

variable {κ : Type}

/-- The least time between two acks. -/
def Params.spacing (P : Params κ) : ℤ := P.gcInterval - 5 * minute

/-- The acks lie in the past, spaced; a handler past its check saw an ack that is far enough back.
-/
structure Timed (P : Params κ) (now : ℤ) (counter : ℕ) (lastAck : ℤ) (ackedAt : ℕ → ℤ)
    (handlers : List Handler) : Prop where
  now_pos : 0 < now
  last : counter = 0 ∧ lastAck = 0 ∨ 1 ≤ counter ∧ lastAck = ackedAt counter
  past : ∀ i, 1 ≤ i → i ≤ counter → 0 < ackedAt i ∧ ackedAt i ≤ now
  spaced : ∀ i j, 1 ≤ i → i < j → j ≤ counter → ackedAt i + P.spacing ≤ ackedAt j
  checked : ∀ e last, .checked e last ∈ handlers → last = 0 ∨ last + P.spacing ≤ now

/-- The epoch of a barrier that is not acked. -/
def Handler.pending : Handler → Option ℕ
  | .checked e _ => some e
  | .recorded e _ _ => some e
  | .acked _ _ _ => none

/-- The epochs against the counts: each epoch is acked once, later epochs at higher counts, and
none once its phase is over. -/
structure Ordered (epoch : ℕ) (phase : Phase) (lastOK : ℕ) (barriers : List ℕ)
    (handlers : List Handler) (acks : List (ℕ × ℕ)) (counter : ℕ) (frozen : List ℕ) : Prop where
  epochs : (barriers ++ handlers.filterMap Handler.pending ++ acks.map Prod.fst).Nodup
  begun : ∀ e ∈ barriers ++ handlers.filterMap Handler.pending ++ acks.map Prod.fst, e ≤ epoch
  counts : ∀ a ∈ acks, 1 ≤ a.2 ∧ a.2 ≤ counter
  mono : ∀ a ∈ acks, ∀ b ∈ acks, a.1 < b.1 → a.2 < b.2
  recorded : ∀ e c b, .recorded e c b ∈ handlers →
    1 ≤ c ∧ c ≤ counter ∧ ∀ a ∈ acks, a.1 < e → a.2 < c
  frozen : ∀ e ∈ frozen, e < epoch ∨ e = epoch ∧ phase ≠ .barrier
  idle : phase = .idle → lastOK = epoch

/-- The mark is of an acked count, and its roots were read after that ack. -/
def Mark.After (acks : List (ℕ × ℕ)) (ackedAt : ℕ → ℤ) (m : Mark κ) : Prop :=
  (m.epoch, m.count) ∈ acks ∧ ackedAt m.count ≤ m.rootsAt

/-- What a sweep works from. -/
def Sweep.input : Sweep κ → Option (SweepInput κ)
  | .compacting si | .dropping si | .deleting si _ => some si
  | .starting _ | .reporting _ => none

/-- What records, marks and sweeps know of the acks. -/
structure Held (acks : List (ℕ × ℕ)) (ackedAt : ℕ → ℤ) (history : ℕ → Option BarrierRecord)
    (handlers : List Handler) (frozen : List ℕ) (marks : List (MarkMsg κ)) (mark : Option (Mark κ))
    (files : ℕ → Option (Mark κ)) (sweeps : ℕ → Option (Sweep κ)) : Prop where
  handler : ∀ e c b, .acked e c b ∈ handlers → (e, c) ∈ acks
  history : ∀ c r, history c = some r → r.confirmed → (r.epoch, c) ∈ acks
  marks : ∀ m ∈ marks, m.epoch ∈ frozen ∧ ∀ c, (m.epoch, c) ∈ acks → ackedAt c ≤ m.rootsAt
  mark : ∀ m, mark = some m → m.After acks ackedAt
  files : ∀ e m, files e = some m → m.epoch = e ∧ m.After acks ackedAt
  sweeps : ∀ i sw, sweeps i = some sw → ∀ si, sw.input = some si → si.toMark.After acks ackedAt

/-- What is known of a key that a gate found present: its pin is there, or was dropped for a mark
two counts on. -/
structure Kept (P : Params κ) (gates : List (Gate κ)) (pins : KV Bytes ℕ) (counter : ℕ) (now : ℤ)
    (ackedAt : ℕ → ℤ) (dropped : ℕ) : Prop where
  past : ∀ g ∈ gates, g.time ≤ now ∧ g.count ≤ counter
  next : ∀ g ∈ gates, g.count < counter → g.time ≤ ackedAt (g.count + 1)
  pinned : ∀ g ∈ gates, g.count < dropped ∨
    ∃ v, pins.get (P.pinKey g.key) = some v ∧ g.count ≤ v

/-- No pin was dropped that the mark of a sweep honours, or of one that has still to get its mark.
-/
def Sweep.Honoured (acks : List (ℕ × ℕ)) (dropped : ℕ) : Sweep κ → Prop
  | .starting e => ∀ c, (e, c) ∈ acks → dropped = 0 ∨ dropped < c
  | .compacting si | .dropping si | .deleting si _ => dropped = 0 ∨ dropped < si.count
  | .reporting _ => True

/-- The pins were dropped for acked counts, and for none above that of a running sweep. -/
structure Dropped (acks : List (ℕ × ℕ)) (dropped : ℕ) (sweeps : ℕ → Option (Sweep κ)) : Prop where
  acked : dropped = 0 ∨ ∃ a ∈ acks, dropped < a.2
  sweeps : ∀ i sw, sweeps i = some sw → sw.Honoured acks dropped

/-- One sweep runs at a time, and the node knows. -/
structure Alone (sweeping : Bool) (sweeps : ℕ → Option (Sweep κ)) : Prop where
  sweeping : ∀ i sw, sweeps i = some sw → sweeping = true
  one : ∀ i j sw sw', sweeps i = some sw → sweeps j = some sw' → i = j

/-- Acks are timed and in order, pins are kept, and one sweep runs at a time. -/
structure Inv (P : Params κ) (s : State κ) : Prop where
  timed : Timed P s.now s.counter s.lastAck s.ackedAt s.handlers
  ordered : Ordered s.gc.epoch s.gc.phase s.gc.lastOK s.barriers s.handlers s.acks s.counter
    s.frozen
  held : Held s.acks s.ackedAt s.history s.handlers s.frozen s.marks s.mark s.files s.sweeps
  kept : Kept P s.gates s.pins s.counter s.now s.ackedAt s.dropped
  dropped : Dropped s.acks s.dropped s.sweeps
  alone : Alone s.sweeping s.sweeps

/-- Whether the race of a step, if it is one, is not lost: a barrier is recorded on the ack time it
was checked against, a sweep is started while the register still has its epoch to sweep and no other
sweep runs, and no pin to be deleted was stamped anew since the scan. -/
def unraced (s : State κ) : Action κ → Bool
  | .record _ last => last = s.lastAck
  | .startSweep st _ => st.epoch = s.gc.epoch ∧ s.due s.gc
  | .dropPins i =>
    match s.sweeps i with
    | some (.deleting si batch) =>
      s.pins.entries.all fun e => !batch.contains e.1 || e.2 < si.count - 1
    | _ => true
  | _ => true

variable {e b c : ℕ} {P : Params κ} {handlers' : List Handler} {now : ℤ}

theorem inv_start (h : 0 < now) : Inv P (start now) where
  timed := ⟨h, .inl ⟨rfl, rfl⟩, by simp [start]; omega, by simp [start]; omega, by simp [start]⟩
  ordered := ⟨by simp [start], by simp [start], by simp [start], by simp [start], by simp [start],
    by simp [start], by simp [start]⟩
  held := ⟨by simp [start], by simp [start], by simp [start], by simp [start], by simp [start],
    by simp [start]⟩
  kept := ⟨by simp [start], by simp [start], by simp [start]⟩
  dropped := ⟨.inl rfl, by simp [start]⟩
  alone := ⟨by simp [start], by simp [start]⟩

/-! ## The clock -/

section Timed

variable {P : Params κ} {now lastAck : ℤ} {counter : ℕ} {ackedAt : ℕ → ℤ}
  {handlers handlers' : List Handler}

theorem Timed.later (h : Timed P now counter lastAck ackedAt handlers) (d : ℕ) :
    Timed P (now + d) counter lastAck ackedAt handlers := by
  refine ⟨by have := h.now_pos; omega, h.last, fun i h1 h2 => ?_, h.spaced, fun e l hl => ?_⟩
  · have := h.past i h1 h2
    omega
  · have := h.checked e l hl
    omega

theorem Timed.sub (h : Timed P now counter lastAck ackedAt handlers)
    (hsub : ∀ e l, .checked e l ∈ handlers' → .checked e l ∈ handlers) :
    Timed P now counter lastAck ackedAt handlers' :=
  ⟨h.now_pos, h.last, h.past, h.spaced, fun e l hl => h.checked e l (hsub e l hl)⟩

theorem Timed.check (h : Timed P now counter lastAck ackedAt handlers)
    (hsoon : ¬ (lastAck ≠ 0 ∧ now - lastAck < P.gcInterval - 5 * minute ∧ 10 * minute < P.gcInterval)) :
    Timed P now counter lastAck ackedAt (.checked e lastAck :: handlers) := by
  refine ⟨h.now_pos, h.last, h.past, h.spaced, fun e' l hl => ?_⟩
  rcases List.mem_cons.1 hl with heq | hl
  · cases heq
    by_contra hcon
    push Not at hcon
    refine hsoon ⟨hcon.1, ?_, P.gcInterval_gt⟩
    have := hcon.2
    unfold Params.spacing at this
    omega
  · exact h.checked e' l hl

/-- A barrier recorded on the ack time it was checked against is spaced from the acks before. -/
theorem Timed.record (h : Timed P now counter lastAck ackedAt handlers)
    (hh : .checked e lastAck ∈ handlers)
    (hsub : ∀ e l, .checked e l ∈ handlers' → .checked e l ∈ handlers) :
    Timed P now (counter + 1) now (Function.update ackedAt (counter + 1) now) handlers' := by
  have hold : ∀ i, i ≤ counter → Function.update ackedAt (counter + 1) now i = ackedAt i :=
    fun i hi => Function.update_of_ne (by omega) ..
  have hgap : ∀ i, 1 ≤ i → i ≤ counter → ackedAt i + P.spacing ≤ now := by
    intro i h1 h2
    have hlast : lastAck = ackedAt counter := by
      rcases h.last with hl | hl
      · omega
      · exact hl.2
    have hpos := (h.past counter (by omega) le_rfl).1
    have hchk : lastAck + P.spacing ≤ now := (h.checked e lastAck hh).resolve_left (by omega)
    rcases Nat.lt_or_ge i counter with hi | hi
    · have h3 := h.spaced i counter h1 hi le_rfl
      have h4 := (h.past counter (by omega) le_rfl).2
      omega
    · obtain rfl : i = counter := by omega
      omega
  refine ⟨h.now_pos, .inr ⟨by omega, by simp⟩, fun i h1 h2 => ?_, fun i j h1 hij hj => ?_,
    fun e l hl => h.checked e l (hsub e l hl)⟩
  · rcases Nat.lt_or_ge counter i with hi | hi
    · obtain rfl : i = counter + 1 := by omega
      simpa using h.now_pos
    · rw [hold i hi]
      exact h.past i h1 hi
  · rw [hold i (by omega)]
    rcases Nat.lt_or_ge counter j with hj' | hj'
    · obtain rfl : j = counter + 1 := by omega
      simpa using hgap i h1 (by omega)
    · rw [hold j hj']
      exact h.spaced i j h1 hij hj'

end Timed

/-! ## The epochs -/

section Ordered

variable {epoch : ℕ} {phase : Phase} {lastOK : ℕ} {barriers : List ℕ} {handlers : List Handler}
  {acks : List (ℕ × ℕ)} {counter : ℕ} {frozen : List ℕ}

theorem pending_erase {h : Handler} (hh : h ∈ handlers) : (handlers.filterMap Handler.pending).Perm
    (h.pending.toList ++ (handlers.erase h).filterMap Handler.pending) := by
  refine ((List.perm_cons_erase hh).filterMap Handler.pending).trans ?_
  rcases ho : h.pending with _ | e <;> simp [ho]

theorem Ordered.sub (h : Ordered epoch phase lastOK barriers handlers acks counter frozen)
    {barriers' w : List ℕ}
    (hperm : (w ++ (barriers' ++ handlers'.filterMap Handler.pending)).Perm
      (barriers ++ handlers.filterMap Handler.pending))
    (hrec : ∀ e c b, .recorded e c b ∈ handlers' → .recorded e c b ∈ handlers) :
    Ordered epoch phase lastOK barriers' handlers' acks counter frozen := by
  have hall := hperm.append_right (acks.map Prod.fst)
  rw [List.append_assoc] at hall
  exact ⟨(List.nodup_append.1 (hall.nodup_iff.2 h.epochs)).2.1,
    fun e he => h.begun e (hall.subset (List.mem_append_right _ he)), h.counts, h.mono,
    fun e c b hb => h.recorded e c b (hrec e c b hb), h.frozen, h.idle⟩

theorem lost_pending {h : Handler} (hh : h ∈ handlers) : (h.pending.toList ++
    (barriers ++ (handlers.erase h).filterMap Handler.pending)).Perm
      (barriers ++ handlers.filterMap Handler.pending) := by
  rw [← List.append_assoc]
  refine (List.perm_append_comm.append_right _).trans ?_
  rw [List.append_assoc]
  exact (pending_erase hh).symm.append_left barriers

theorem Ordered.goto (h : Ordered epoch phase lastOK barriers handlers acks counter frozen)
    {phase' : Phase} {lastOK' : ℕ} (hp : phase' ≠ .barrier)
    (hi : phase' = .idle → lastOK' = epoch) :
    Ordered epoch phase' lastOK' barriers handlers acks counter frozen :=
  ⟨h.epochs, h.begun, h.counts, h.mono, h.recorded,
    fun e he => (h.frozen e he).imp_right fun h => ⟨h.1, hp⟩, hi⟩

theorem Ordered.freeze (h : Ordered epoch phase lastOK barriers handlers acks counter frozen)
    (hp : phase ≠ .barrier) :
    Ordered epoch phase lastOK barriers handlers acks counter (epoch :: frozen) :=
  ⟨h.epochs, h.begun, h.counts, h.mono, h.recorded,
    List.forall_mem_cons.2 ⟨.inr ⟨rfl, hp⟩, h.frozen⟩, h.idle⟩

theorem Ordered.barrier (h : Ordered epoch phase lastOK barriers handlers acks counter frozen) :
    Ordered (epoch + 1) .barrier lastOK ((epoch + 1) :: barriers) handlers acks counter frozen := by
  refine ⟨List.nodup_cons.2 ⟨fun he => ?_, h.epochs⟩,
    List.forall_mem_cons.2 ⟨le_rfl, fun e he => ?_⟩,
    h.counts, h.mono, h.recorded, fun e he => .inl ?_, by simp⟩
  · have := h.begun _ he
    omega
  · exact (h.begun e he).trans (Nat.le_succ _)
  · rcases h.frozen e he with hlt | ⟨rfl, -⟩
    · exact hlt.trans (Nat.lt_succ_self _)
    · exact Nat.lt_succ_self _

/-- A barrier is recorded under the next count. -/
theorem Ordered.record (h : Ordered epoch phase lastOK barriers handlers acks counter frozen)
    {l : ℤ} (hh : .checked e l ∈ handlers) :
    Ordered epoch phase lastOK barriers
      (.recorded e (counter + 1) b :: handlers.erase (.checked e l)) acks (counter + 1) frozen := by
  have hperm : ((Handler.recorded e (counter + 1) b :: handlers.erase (.checked e l)).filterMap
      Handler.pending).Perm (handlers.filterMap Handler.pending) := (pending_erase hh).symm
  have hall := (hperm.append_left barriers).append_right (acks.map Prod.fst)
  refine ⟨hall.nodup_iff.2 h.epochs, fun e' he' => h.begun e' (hall.subset he'), fun a ha => ?_,
    h.mono, fun e' c b' hr => ?_, h.frozen, h.idle⟩
  · have := h.counts a ha
    omega
  · rcases List.mem_cons.1 hr with heq | hr
    · cases heq
      refine ⟨by omega, le_rfl, fun a ha _ => ?_⟩
      have := (h.counts a ha).2
      omega
    · obtain ⟨h1, h2, h3⟩ := h.recorded e' c b' (List.mem_of_mem_erase hr)
      exact ⟨h1, by omega, h3⟩

theorem Ordered.before_ack (h : Ordered epoch phase lastOK barriers handlers acks counter frozen)
    (hh : .recorded epoch c b ∈ handlers) : ∀ a ∈ acks, a.1 < epoch ∧ a.2 < c := by
  intro a ha
  have hne : a.1 ≠ epoch := by
    intro heq
    have hnd := h.epochs
    rw [List.append_assoc, List.nodup_append] at hnd
    have hnd := hnd.2.1
    rw [List.nodup_append] at hnd
    refine hnd.2.2 epoch ?_ a.1 (List.mem_map_of_mem ha) heq.symm
    exact List.mem_filterMap.2 ⟨_, hh, rfl⟩
  have hlt : a.1 < epoch := lt_of_le_of_ne (h.begun a.1 (by simp; exact .inr (.inr ⟨a.2, ha⟩))) hne
  exact ⟨hlt, (h.recorded epoch c b hh).2.2 a ha hlt⟩

/-- An ack is the first of its epoch, and above those of the epochs before. -/
theorem Ordered.ack (h : Ordered epoch phase lastOK barriers handlers acks counter frozen)
    (hh : .recorded epoch c b ∈ handlers) :
    Ordered epoch phase lastOK barriers
      (.acked epoch c b :: handlers.erase (.recorded epoch c b)) ((epoch, c) :: acks) counter
      frozen := by
  obtain ⟨hc1, hc2, -⟩ := h.recorded epoch c b hh
  have hbefore := h.before_ack hh
  have hperm : ((Handler.acked epoch c b :: handlers.erase (.recorded epoch c b)).filterMap
      Handler.pending ++ ((epoch, c) :: acks).map Prod.fst).Perm
      (handlers.filterMap Handler.pending ++ acks.map Prod.fst) := by
    refine List.Perm.trans ?_ ((pending_erase hh).append_right _).symm
    rw [List.filterMap_cons_none rfl]
    exact List.perm_middle
  have hall : (barriers ++ (Handler.acked epoch c b ::
      handlers.erase (.recorded epoch c b)).filterMap Handler.pending ++
      ((epoch, c) :: acks).map Prod.fst).Perm
      (barriers ++ handlers.filterMap Handler.pending ++ acks.map Prod.fst) := by
    rw [List.append_assoc, List.append_assoc]
    exact hperm.append_left barriers
  refine ⟨hall.nodup_iff.2 h.epochs, fun e' he' => h.begun e' (hall.subset he'), ?_, ?_, ?_,
    h.frozen, h.idle⟩
  · exact List.forall_mem_cons.2 ⟨⟨hc1, hc2⟩, h.counts⟩
  · intro a ha a' ha' hlt'
    rcases List.mem_cons.1 ha with rfl | ha <;> rcases List.mem_cons.1 ha' with rfl | ha'
    · omega
    · exact absurd (hbefore a' ha').1 (by simp at hlt'; omega)
    · exact (hbefore a ha).2
    · exact h.mono a ha a' ha' hlt'
  · intro e' c' b' hr
    have hr : .recorded e' c' b' ∈ handlers := by
      rcases List.mem_cons.1 hr with heq | hr
      · cases heq
      · exact List.mem_of_mem_erase hr
    obtain ⟨h1, h2, h3⟩ := h.recorded e' c' b' hr
    refine ⟨h1, h2, List.forall_mem_cons.2 ⟨fun hlt' => ?_, h3⟩⟩
    have := h.begun e' (by simp; exact .inr (.inl ⟨_, hr, rfl⟩))
    simp at hlt'
    omega

end Ordered

/-! ## The marks -/

theorem forall_update {sweeps : ℕ → Option (Sweep κ)} {i : ℕ} {Q : Sweep κ → Prop}
    {new : Option (Sweep κ)} (h : ∀ j sw, sweeps j = some sw → Q sw)
    (hnew : ∀ sw, new = some sw → Q sw) (j : ℕ) (sw : Sweep κ)
    (hj : Function.update sweeps i new j = some sw) : Q sw := by
  rw [Function.update_apply] at hj
  split_ifs at hj
  · exact hnew sw hj
  · exact h j sw hj

section Held

variable {acks : List (ℕ × ℕ)} {ackedAt : ℕ → ℤ} {history : ℕ → Option BarrierRecord}
  {handlers : List Handler} {frozen : List ℕ} {marks : List (MarkMsg κ)} {mark : Option (Mark κ)}
  {files : ℕ → Option (Mark κ)} {sweeps : ℕ → Option (Sweep κ)}

theorem Held.sub (h : Held acks ackedAt history handlers frozen marks mark files sweeps)
    (hsub : ∀ e c b, .acked e c b ∈ handlers' → .acked e c b ∈ handlers) :
    Held acks ackedAt history handlers' frozen marks mark files sweeps :=
  ⟨fun e c b hb => h.handler e c b (hsub e c b hb), h.history, h.marks, h.mark, h.files, h.sweeps⟩

/-- A record that is not confirmed says nothing yet. -/
theorem Held.record (h : Held acks ackedAt history handlers frozen marks mark files sweeps)
    (hc : ∀ a ∈ acks, a.2 < c) (hsub : ∀ e c b, .acked e c b ∈ handlers' → .acked e c b ∈ handlers) :
    Held acks (Function.update ackedAt c now) (Function.update history c (some ⟨e, b, false⟩))
      handlers' frozen marks mark files sweeps := by
  have hold : ∀ a ∈ acks, Function.update ackedAt c now a.2 = ackedAt a.2 := fun a ha =>
    Function.update_of_ne (hc a ha).ne ..
  have hafter : ∀ {m : Mark κ}, m.After acks ackedAt →
      m.After acks (Function.update ackedAt c now) := fun hm => ⟨hm.1, by
    rw [hold _ hm.1]
    exact hm.2⟩
  refine ⟨fun e c b hb => h.handler e c b (hsub e c b hb), fun c' r hr hconf => ?_,
    fun m hm => ⟨(h.marks m hm).1, fun c' hc' => ?_⟩, fun m hm => hafter (h.mark m hm),
    fun e m hm => ⟨(h.files e m hm).1, hafter (h.files e m hm).2⟩,
    fun i sw hsw si hsi => hafter (h.sweeps i sw hsw si hsi)⟩
  · rcases eq_or_ne c' c with rfl | hne
    · rw [Function.update_self, Option.some.injEq] at hr
      simp [← hr] at hconf
    · rw [Function.update_of_ne hne] at hr
      exact h.history c' r hr hconf
  · rw [hold _ hc']
    exact (h.marks m hm).2 c' hc'

/-- An ack of an epoch that is not frozen. -/
theorem Held.ack (h : Held acks ackedAt history handlers frozen marks mark files sweeps)
    (he : e ∉ frozen)
    (hsub : ∀ e' c' b', .acked e' c' b' ∈ handlers' →
      .acked e' c' b' ∈ handlers ∨ Handler.acked e' c' b' = .acked e c b) :
    Held ((e, c) :: acks) ackedAt history handlers' frozen marks mark files sweeps := by
  have hafter : ∀ {m : Mark κ}, m.After acks ackedAt → m.After ((e, c) :: acks) ackedAt :=
    fun hm => ⟨List.mem_cons_of_mem _ hm.1, hm.2⟩
  refine ⟨fun e' c' b' hb => ?_,
    fun c' r hr hconf => List.mem_cons_of_mem _ (h.history c' r hr hconf),
    fun m hm => ⟨(h.marks m hm).1, fun c' hc' => ?_⟩, fun m hm => hafter (h.mark m hm),
    fun e m hm => ⟨(h.files e m hm).1, hafter (h.files e m hm).2⟩,
    fun i sw hsw si hsi => hafter (h.sweeps i sw hsw si hsi)⟩
  · rcases hsub e' c' b' hb with hb | hb
    · exact List.mem_cons_of_mem _ (h.handler e' c' b' hb)
    · cases hb
      exact List.mem_cons_self
  · rcases List.mem_cons.1 hc' with heq | hc'
    · cases heq
      exact absurd (h.marks m hm).1 he
    · exact (h.marks m hm).2 c' hc'

theorem Held.persist (h : Held acks ackedAt history handlers frozen marks mark files sweeps)
    {m : Mark κ} (hm : m.After acks ackedAt) :
    Held acks ackedAt history handlers frozen marks mark
      (Function.update files m.epoch (some m)) sweeps := by
  refine ⟨h.handler, h.history, h.marks, h.mark, fun e m' hm' => ?_, h.sweeps⟩
  rcases eq_or_ne e m.epoch with rfl | hne
  · rw [Function.update_self, Option.some.injEq] at hm'
    exact hm' ▸ ⟨rfl, hm⟩
  · rw [Function.update_of_ne hne] at hm'
    exact h.files e m' hm'

theorem Held.put (h : Held acks ackedAt history handlers frozen marks mark files sweeps)
    {i : ℕ} {new : Option (Sweep κ)}
    (hnew : ∀ sw, new = some sw → ∀ si, sw.input = some si → si.toMark.After acks ackedAt) :
    Held acks ackedAt history handlers frozen marks mark files (Function.update sweeps i new) :=
  ⟨h.handler, h.history, h.marks, h.mark, h.files, forall_update h.sweeps hnew⟩

theorem Held.confirm (h : Held acks ackedAt history handlers frozen marks mark files sweeps)
    (hh : .acked e c b ∈ handlers)
    (hsub : ∀ e c b, .acked e c b ∈ handlers' → .acked e c b ∈ handlers) :
    Held acks ackedAt (Function.update history c (some ⟨e, b, true⟩)) handlers' frozen marks mark
      files sweeps := by
  refine ⟨fun e c b hb => h.handler e c b (hsub e c b hb), fun c' r hr hconf => ?_, h.marks, h.mark,
    h.files, h.sweeps⟩
  rcases eq_or_ne c' c with rfl | hne
  · rw [Function.update_self, Option.some.injEq] at hr
    rw [← hr]
    exact h.handler e c' b hh
  · rw [Function.update_of_ne hne] at hr
    exact h.history c' r hr hconf

end Held

section marks

variable {s : State κ}

theorem countOf_eq {r : BarrierRecord} (h : s.countOf e = some (c, r)) :
    s.history c = some r ∧ r.epoch = e := by
  obtain ⟨i, -, hi⟩ := List.exists_of_findSome?_eq_some h
  split_ifs at hi with hlt
  split at hi
  · rename_i r' hr
    split_ifs at hi with he
    cases hi
    exact ⟨hr, he⟩
  · simp at hi

variable [DecidableEq κ]

theorem Inv.handleMark (hi : Inv P s) {m : MarkMsg κ} {mark : Mark κ} {fails : ℕ → Option ℕ}
    (hm : m ∈ s.marks) (h : s.handleMark m fails = some mark) : mark.After s.acks s.ackedAt := by
  unfold State.handleMark at h
  split at h
  · rename_i count r hc
    split_ifs at h with hconf
    cases h
    obtain ⟨hr, he⟩ := countOf_eq hc
    have hack : (m.epoch, count) ∈ s.acks := he ▸ hi.held.history count r hr hconf
    exact ⟨hack, (hi.held.marks m hm).2 count hack⟩
  · simp at h

/-- A sweep's input is a mark that began after the acks. -/
theorem Inv.sweepInputFor (hi : Inv P s) {si : SweepInput κ} {fails : ℕ → Option ℕ}
    (h : s.sweepInputFor e fails = some si) :
    si.epoch = e ∧ si.toMark.After s.acks s.ackedAt := by
  have hload : ∀ m, s.loadMark e fails = some m → m.epoch = e ∧ m.After s.acks s.ackedAt := by
    intro m hm
    obtain ⟨m', hm', rfl⟩ := Option.map_eq_some_iff.1 hm
    exact hi.held.files e m' hm'
  obtain ⟨m, hm, rfl⟩ := Option.map_eq_some_iff.1 h
  suffices m.epoch = e ∧ m.After s.acks s.ackedAt from ⟨this.1, this.2⟩
  split at hm
  · rename_i m' hm'
    split_ifs at hm with he
    · cases hm
      exact ⟨he, hi.held.mark m hm'⟩
    · exact hload m hm
  · exact hload m hm

end marks

/-! ## The sweeps -/

section sweeps

variable {acks : List (ℕ × ℕ)} {dropped i : ℕ} {sweeping : Bool} {sweeps : ℕ → Option (Sweep κ)}
  {sw old : Sweep κ}

theorem Dropped.put (h : Dropped acks dropped sweeps) (hnew : sw.Honoured acks dropped) :
    Dropped acks dropped (Function.update sweeps i (some sw)) :=
  ⟨h.acked, forall_update h.sweeps (by rintro _ ⟨⟩; exact hnew)⟩

theorem Dropped.ack (h : Dropped acks dropped sweeps) (hlt : ∀ a ∈ acks, a.2 < c) :
    Dropped ((e, c) :: acks) dropped sweeps := by
  refine ⟨h.acked.imp_right fun ⟨a, ha, hlt⟩ => ⟨a, List.mem_cons_of_mem _ ha, hlt⟩,
    fun i sw hsw => ?_⟩
  have hold := h.sweeps i sw hsw
  cases sw with
  | starting e' =>
    intro c' hc'
    rcases List.mem_cons.1 hc' with heq | hc'
    · cases heq
      exact h.acked.imp_right fun ⟨a, ha, hd⟩ => hd.trans (hlt a ha)
    · exact hold c' hc'
  | _ => exact hold

/-- The pins dropped by the one sweep that runs were not honoured by its mark. -/
theorem Dropped.drop (h : Dropped acks dropped sweeps) (hal : Alone sweeping sweeps)
    {si : SweepInput κ} {batch : List Bytes} (hi : sweeps i = some (.deleting si batch))
    (hack : (si.epoch, si.count) ∈ acks) (hpos : 1 ≤ si.count) :
    Dropped acks (max dropped (si.count - 1))
      (Function.update sweeps i (some (.reporting si.epoch))) := by
  refine ⟨.inr ⟨_, hack, ?_⟩, fun j sw hj => ?_⟩
  · have hold : dropped = 0 ∨ dropped < si.count := h.sweeps i _ hi
    simp only
    omega
  · rw [Function.update_apply] at hj
    split_ifs at hj with hji
    · cases hj
      exact trivial
    · exact absurd (hal.one j i _ _ hj hi) hji

/-- A sweep that moves on is still the only one. -/
theorem Alone.put (h : Alone sweeping sweeps) (hi : sweeps i = some old) :
    Alone sweeping (Function.update sweeps i (some sw)) := by
  have hrun : ∀ {j sw'}, Function.update sweeps i (some sw) j = some sw' →
      ∃ sw'', sweeps j = some sw'' := by
    intro j sw' hj
    rw [Function.update_apply] at hj
    split_ifs at hj with hji
    · exact ⟨old, hji ▸ hi⟩
    · exact ⟨sw', hj⟩
  refine ⟨fun j sw' hj => ?_, fun j k _ _ hj hk => ?_⟩
  · obtain ⟨sw'', hj⟩ := hrun hj
    exact h.sweeping j sw'' hj
  · obtain ⟨_, hj⟩ := hrun hj
    obtain ⟨_, hk⟩ := hrun hk
    exact h.one j k _ _ hj hk

theorem Alone.start (h : Alone sweeping sweeps) (hidle : sweeping = false) :
    Alone true (Function.update sweeps i (some sw)) := by
  have hrun : ∀ {j sw'}, Function.update sweeps i (some sw) j = some sw' → j = i := by
    intro j sw' hj
    rw [Function.update_apply] at hj
    split_ifs at hj with hji
    · exact hji
    · exact absurd (h.sweeping j sw' hj) (by simp [hidle])
  exact ⟨fun _ _ _ => rfl, fun j k _ _ hj hk => (hrun hj).trans (hrun hk).symm⟩

theorem Alone.stop (h : Alone sweeping sweeps) (hi : sweeps i = some old) :
    Alone false (Function.update sweeps i none) := by
  have hnone : ∀ {j sw'}, Function.update sweeps i none j ≠ some sw' := by
    intro j sw' hj
    rw [Function.update_apply] at hj
    split_ifs at hj with hji
    exact hji (h.one j i _ _ hj hi)
  exact ⟨fun _ _ hj => absurd hj hnone, fun _ _ _ _ hj _ => absurd hj hnone⟩

end sweeps

/-! ## The pins -/

section Kept

variable {P : Params κ} {gates : List (Gate κ)} {pins : KV Bytes ℕ} {counter : ℕ} {now : ℤ}
  {ackedAt : ℕ → ℤ} {dropped : ℕ}

theorem Kept.later (h : Kept P gates pins counter now ackedAt dropped) (d : ℕ) :
    Kept P gates pins counter (now + d) ackedAt dropped :=
  ⟨fun g hg => ⟨by have := (h.past g hg).1; omega, (h.past g hg).2⟩, h.next, h.pinned⟩

theorem Kept.pin (h : Kept P gates pins counter now ackedAt dropped) (keys : List κ) :
    Kept P gates (keys.foldl (fun pins k => pins.set (P.pinKey k) counter) pins) counter now ackedAt
      dropped := by
  refine ⟨h.past, h.next, fun g hg => (h.pinned g hg).imp_right ?_⟩
  rintro ⟨v, hv, hle⟩
  rw [KV.get_foldl_set]
  split_ifs
  · exact ⟨counter, rfl, (h.past g hg).2⟩
  · exact ⟨v, hv, hle⟩

/-- A gate pins its keys at the counter. -/
theorem Kept.gate (h : Kept P gates pins counter now ackedAt dropped) (keys : List κ) :
    Kept P (gates ++ keys.map fun k => ⟨k, now, counter⟩)
      (keys.foldl (fun pins k => pins.set (P.pinKey k) counter) pins) counter now ackedAt
      dropped := by
  have hnew : ∀ g ∈ keys.map fun k => (⟨k, now, counter⟩ : Gate κ), g.time = now ∧
      g.count = counter ∧ g.key ∈ keys := by
    intro g hg
    obtain ⟨k, hk, rfl⟩ := List.mem_map.1 hg
    exact ⟨rfl, rfl, hk⟩
  have hp := h.pin keys
  refine ⟨fun g hg => ?_, fun g hg hlt => ?_, fun g hg => ?_⟩ <;>
    rcases List.mem_append.1 hg with hg | hg
  · exact h.past g hg
  · obtain ⟨h1, h2, -⟩ := hnew g hg
    exact ⟨h1.le, h2.le⟩
  · exact h.next g hg hlt
  · obtain ⟨-, h2, -⟩ := hnew g hg
    omega
  · exact hp.pinned g hg
  · obtain ⟨-, h2, hk⟩ := hnew g hg
    refine .inr ⟨counter, ?_, h2.le⟩
    rw [KV.get_foldl_set, if_pos (List.mem_map_of_mem hk)]

theorem Kept.record (h : Kept P gates pins counter now ackedAt dropped) :
    Kept P gates pins (counter + 1) now (Function.update ackedAt (counter + 1) now) dropped := by
  refine ⟨fun g hg => ⟨(h.past g hg).1, (h.past g hg).2.trans (Nat.le_succ _)⟩, fun g hg _ => ?_,
    h.pinned⟩
  rcases (h.past g hg).2.lt_or_eq with hlt | heq
  · rw [Function.update_of_ne (by omega)]
    exact h.next g hg hlt
  · rw [heq, Function.update_self]
    exact (h.past g hg).1

theorem Kept.drop (h : Kept P gates pins counter now ackedAt dropped) {batch : List Bytes}
    {below : ℕ} (hb : ∀ e ∈ pins.entries, e.1 ∈ batch → e.2 < below) :
    Kept P gates (batch.foldl (fun pins key => pins.delete key) pins) counter now ackedAt
      (max dropped below) := by
  refine ⟨h.past, h.next, fun g hg => ?_⟩
  rcases h.pinned g hg with hd | ⟨v, hv, hle⟩
  · exact .inl (by omega)
  · rw [KV.get_foldl_delete]
    split_ifs with ht
    · have := hb _ (KV.get_eq_some.1 hv) ht
      exact .inl (by omega)
    · exact .inr ⟨v, hv, hle⟩

end Kept

/-! ## Runs -/

theorem Inv.count_le {s : State κ} (hi : Inv P s) {a b : ℕ × ℕ} (ha : a ∈ s.acks) (hb : b ∈ s.acks)
    (h : a.1 ≤ b.1) : a.2 ≤ b.2 := by
  rcases h.lt_or_eq with hlt | heq
  · exact (hi.ordered.mono a ha b hb hlt).le
  · have hnd := (List.nodup_append.1 hi.ordered.epochs).2.1
    rw [List.inj_on_of_nodup_map hnd ha hb heq]

theorem Inv.roots_late {s : State κ} (hi : Inv P s) {g : Gate κ} (hg : g ∈ s.gates) {m : Mark κ}
    (hm : m.After s.acks s.ackedAt) (hlt : g.count + 1 < m.count) :
    g.time + P.putTTL ≤ m.rootsAt := by
  have hc := (hi.ordered.counts _ hm.1).2
  have hnext := hi.kept.next g hg (by simp only at hc; omega)
  have hspace := hi.timed.spaced (g.count + 1) m.count (by omega) hlt hc
  have hroots := hm.2
  have httl := P.putTTL_le
  unfold Params.spacing at hspace
  omega

variable [DecidableEq κ] {P : Params κ} {s s' : State κ} {a : Action κ}

/-- Outside the races every step keeps the invariant. -/
theorem inv_step (hi : Inv P s) (hok : unraced s a) (h : step P s a = some s') : Inv P s' := by
  obtain ⟨ht, ho, hh, hk, hd, hal⟩ := hi
  cases a with
  | tick d =>
    cases h
    exact ⟨ht.later d, ho, hh, hk.later d, hd, hal⟩
  | put keys pack =>
    simp only [step] at h
    split_ifs at h
    cases h
    exact ⟨ht, ho, hh, hk.pin _, hd, hal⟩
  | missing keys pin =>
    simp only [step] at h
    split_ifs at h
    · cases h
      exact ⟨ht, ho, hh, hk.gate _, hd, hal⟩
    · cases h
      exact ⟨ht, ho, hh, hk, hd, hal⟩
  | sealSegment id =>
    simp only [step] at h
    split_ifs at h
    cases h
    exact ⟨ht, ho, hh, hk, hd, hal⟩
  | markCorrupt k =>
    cases h
    exact ⟨ht, ho, hh, hk, hd, hal⟩
  | check epoch =>
    simp only [step] at h
    split_ifs at h with hb hsoon
    · cases h
      exact ⟨ht, ho.sub (w := [epoch]) ((List.perm_cons_erase hb).symm.append_right _)
        fun _ _ _ h => h, hh, hk, hd, hal⟩
    · cases h
      refine ⟨ht.check (by simpa [State.tooSoon] using hsoon),
        ho.sub (w := []) ?_ fun e c b h => ?_,
        hh.sub fun e c b h => ?_, hk, hd, hal⟩
      · exact List.perm_middle.trans ((List.perm_cons_erase hb).symm.append_right _)
      · simpa using h
      · simpa using h
  | record epoch last =>
    simp only [step] at h
    split_ifs at h with hm
    cases h
    obtain rfl : last = s.lastAck := by simpa [unraced] using hok
    have hsub : ∀ {h : Handler}, h ∈ s.handlers.erase (.checked epoch s.lastAck) → h ∈ s.handlers :=
      List.mem_of_mem_erase
    refine ⟨ht.record hm ?_, ho.record hm, hh.record ?_ ?_, hk.record, hd, hal⟩
    · intro e l hl
      simpa using hsub (by simpa using hl)
    · intro a ha
      have := (ho.counts a ha).2
      omega
    · intro e c b hb
      exact hsub (by simpa using hb)
  | ack epoch count below =>
    simp only [step] at h
    have hsub : ∀ {h : Handler}, h ∈ s.handlers.erase (.recorded epoch count below) →
        h ∈ s.handlers := List.mem_of_mem_erase
    split_ifs at h with hm hp
    · cases h
      obtain ⟨rfl, hp⟩ := hp
      have hfrozen : s.gc.epoch ∉ s.frozen := fun he =>
        (ho.frozen _ he).elim (fun h => h.ne rfl) fun h => h.2 hp
      refine ⟨ht.sub fun e l h => hsub (by simpa using h), ho.ack hm,
        hh.ack (b := below) hfrozen ?_, hk, hd.ack fun a ha => (ho.before_ack hm a ha).2, hal⟩
      intro e c b h
      exact (List.mem_cons.1 h).symm.imp_left hsub
    · cases h
      exact ⟨ht.sub fun _ _ h => hsub h, ho.sub (lost_pending hm) fun _ _ _ h => hsub h,
        hh.sub fun _ _ _ h => hsub h, hk, hd, hal⟩
  | confirm epoch count below =>
    simp only [step] at h
    split_ifs at h with hm
    cases h
    have hsub : ∀ {h : Handler}, h ∈ s.handlers.erase (.acked epoch count below) →
        h ∈ s.handlers := List.mem_of_mem_erase
    exact ⟨ht.sub fun _ _ h => hsub h, ho.sub (lost_pending hm) fun _ _ _ h => hsub h,
      hh.confirm hm fun _ _ _ h => hsub h, hk, hd, hal⟩
  | handleMark i fails =>
    simp only [step] at h
    split at h
    · simp at h
    · rename_i m hm
      split at h
      · cases h
        exact ⟨ht, ho, hh, hk, hd, hal⟩
      · rename_i mark hmark
        cases h
        have := Inv.handleMark ⟨ht, ho, hh, hk, hd, hal⟩ (List.mem_of_getElem? hm) hmark
        refine ⟨ht, ho, ⟨hh.handler, hh.history, hh.marks, ?_, hh.files, hh.sweeps⟩, hk, hd, hal⟩
        rintro _ ⟨⟩
        exact this
  | marking keys =>
    obtain ⟨m, hm, rfl⟩ := Option.map_eq_some_iff.1 h
    refine ⟨ht, ho, ⟨hh.handler, hh.history, hh.marks, ?_, hh.files, hh.sweeps⟩, hk, hd, hal⟩
    rintro _ ⟨⟩
    exact hh.mark m hm
  | persist =>
    obtain ⟨m, hm, rfl⟩ := Option.map_eq_some_iff.1 h
    exact ⟨ht, ho, hh.persist (hh.mark m hm), hk, hd, hal⟩
  | dropMark =>
    cases h
    exact ⟨ht, ho, ⟨hh.handler, hh.history, hh.marks, by simp, hh.files, hh.sweeps⟩, hk, hd, hal⟩
  | readGC =>
    cases h
    exact ⟨ht, ho, hh, hk, hd, hal⟩
  | checkSweep st =>
    simp only [step] at h
    split_ifs at h
    all_goals
      cases h
      exact ⟨ht, ho, hh, hk, hd, hal⟩
  | startSweep st i =>
    simp only [step] at h
    split_ifs at h
    cases h
    obtain ⟨he, -, -, -, -, hidle⟩ : st.epoch = s.gc.epoch ∧ s.gc.phase = .sweep ∧ s.gc.acked ∧
        s.gc.sweepDone = false ∧ s.gc.epoch ∉ s.swept ∧ s.sweeping = false := by
      simpa [unraced, State.due] using hok
    refine ⟨ht, ho, hh.put (by rintro _ ⟨⟩ _ ⟨⟩), hk, hd.put ?_, hal.start hidle⟩
    -- the acks go up to the epoch of the register
    intro c hc
    refine hd.acked.imp_right ?_
    rintro ⟨a, ha, hlt⟩
    refine hlt.trans_le (Inv.count_le ⟨ht, ho, hh, hk, hd, hal⟩ ha hc ?_)
    have := ho.begun a.1 (by simp; exact .inr (.inr ⟨a.2, ha⟩))
    simpa [he] using this
  | input i fails =>
    simp only [step] at h
    split at h
    · rename_i epoch hsw
      split at h
      · cases h
        exact ⟨ht, ho, hh.put (by rintro _ ⟨⟩ _ ⟨⟩), hk, hd.put trivial, hal.put hsw⟩
      · rename_i si hsi
        cases h
        obtain ⟨he, hafter⟩ := Inv.sweepInputFor ⟨ht, ho, hh, hk, hd, hal⟩ hsi
        refine ⟨ht, ho, hh.put ?_, hk, hd.put ?_, hal.put hsw⟩
        · rintro _ ⟨⟩ _ ⟨⟩
          exact hafter
        · exact hd.sweeps i _ hsw si.count (he ▸ hafter.1)
    · simp at h
  | compact i ids pack cur settled =>
    simp only [step] at h
    split at h
    · rename_i si hsw
      split_ifs at h
      cases h
      have hold : (Sweep.compacting si).Honoured s.acks s.dropped := hd.sweeps i _ hsw
      refine ⟨ht, ho, hh.put ?_, hk, hd.put hold, hal.put hsw⟩
      rintro _ ⟨⟩ _ ⟨⟩
      exact hh.sweeps i _ hsw si rfl
    · simp at h
  | scanPins i =>
    simp only [step] at h
    split at h
    · rename_i si hsw
      cases h
      have hold : (Sweep.dropping si).Honoured s.acks s.dropped := hd.sweeps i _ hsw
      refine ⟨ht, ho, hh.put ?_, hk, hd.put hold, hal.put hsw⟩
      rintro _ ⟨⟩ _ ⟨⟩
      exact hh.sweeps i _ hsw si rfl
    · simp at h
  | dropPins i =>
    simp only [step] at h
    split at h
    · rename_i si batch hsw
      cases h
      have hack := (hh.sweeps i _ hsw si rfl).1
      exact ⟨ht, ho, hh.put (by rintro _ ⟨⟩ _ ⟨⟩),
        hk.drop (by simpa [unraced, hsw, ← imp_iff_not_or] using hok),
        hd.drop hal hsw hack (ho.counts _ hack).1, hal.put hsw⟩
    · simp at h
  | report i ok =>
    simp only [step] at h
    split at h
    · rename_i epoch hsw
      cases h
      have hgc : ∀ g : GCState, (if ok then s.gc.report epoch else s.gc) = g →
          g.epoch = s.gc.epoch ∧ g.phase = s.gc.phase ∧ g.lastOK = s.gc.lastOK := by
        rintro g rfl
        unfold GCState.report
        split_ifs <;> exact ⟨rfl, rfl, rfl⟩
      obtain ⟨h1, h2, h3⟩ := hgc _ rfl
      refine ⟨ht, ?_, hh.put (by simp), hk, ⟨hd.acked, forall_update hd.sweeps (by simp)⟩,
        hal.stop hsw⟩
      simp only [h1, h2, h3]
      exact ho
    · simp at h
  | restart =>
    cases h
    refine ⟨ht.sub (by simp), ho.sub (w := s.handlers.filterMap Handler.pending) ?_ (by simp),
      ⟨by simp, hh.history, hh.marks, by simp, hh.files, by simp⟩, hk, ⟨hd.acked, by simp⟩,
      ⟨by simp, by simp⟩⟩
    simpa using List.perm_append_comm
  | barrier =>
    simp only [step] at h
    split_ifs at h with hp
    cases h
    exact ⟨ht, ho.barrier, hh, hk, hd, hal⟩
  | snapshot =>
    simp only [step] at h
    split_ifs at h with hp hacked
    all_goals
      cases h
    · refine ⟨ht, (ho.goto (by simp) (by simp)).freeze (by simp),
        ⟨hh.handler, hh.history, fun m hm =>
        ⟨List.mem_cons_of_mem _ (hh.marks m hm).1, (hh.marks m hm).2⟩, hh.mark, hh.files, hh.sweeps⟩,
        hk, hd, hal⟩
    · exact ⟨ht, ho.goto (by simp) (by simp), hh, hk, hd, hal⟩
  | roots epoch owned =>
    simp only [step] at h
    split_ifs at h with he
    cases h
    refine ⟨ht, ho, ⟨hh.handler, hh.history, fun m hm => ?_, hh.mark, hh.files, hh.sweeps⟩, hk, hd, hal⟩
    rcases List.mem_append.1 hm with hm | hm
    · exact hh.marks m hm
    · obtain rfl := List.mem_singleton.1 hm
      exact ⟨he, fun c hc => (ht.past c (ho.counts _ hc).1 (ho.counts _ hc).2).2⟩
  | markDone =>
    simp only [step] at h
    split_ifs at h
    cases h
    exact ⟨ht, ho.goto (by simp) (by simp), hh, hk, hd, hal⟩
  | abort =>
    simp only [step] at h
    split_ifs at h
    cases h
    exact ⟨ht, ho.goto (by simp) (by simp), hh, hk, hd, hal⟩
  | finish =>
    simp only [step] at h
    split_ifs at h
    cases h
    exact ⟨ht, ho.goto (by simp) fun _ => rfl, hh, hk, hd, hal⟩
  | resweep =>
    simp only [step] at h
    split_ifs at h with hp
    cases h
    -- the register is idle only after the epoch it names was swept
    have he := ho.idle hp.1
    refine ⟨ht, ?_, hh, hk, hd, hal⟩
    simp only [he]
    exact ho.goto (by simp) (by simp)

theorem inv_run (hnow : 0 < now) {acts : List (Action κ)}
    (hok : Machine.Along (step P) (fun s a => unraced s a) (start now) acts)
    (h : Machine.run (step P) (start now) acts = some s) : Inv P s :=
  Machine.invariant_along (fun _ _ _ hi hok h => inv_step hi hok h) acts (inv_start hnow) hok h

/-- What a step does to the sweeps: nothing, or it takes one from a stage to the next, or ends all.
-/
inductive Moved (s s' : State κ) : Action κ → Prop
  | same {a : Action κ} (heq : s'.sweeps = s.sweeps) : Moved s s' a
  | restart (heq : s'.sweeps = fun _ => none) : Moved s s' .restart
  | started {st : GCState} {i : ℕ} (h : s.sweeps i = none)
    (heq : s'.sweeps = Function.update s.sweeps i (some (.starting st.epoch))) :
    Moved s s' (.startSweep st i)
  | unmarked {i e : ℕ} {fails : ℕ → Option ℕ} (h : s.sweeps i = some (.starting e))
    (heq : s'.sweeps = Function.update s.sweeps i (some (.reporting e))) : Moved s s' (.input i fails)
  | marked {i e : ℕ} {fails : ℕ → Option ℕ} {si : SweepInput κ}
    (h : s.sweeps i = some (.starting e) ∧ s.sweepInputFor e fails = some si)
    (heq : s'.sweeps = Function.update s.sweeps i (some (.compacting si))) :
    Moved s s' (.input i fails)
  | compacted {i pack : ℕ} {ids : List ℕ} {cur : κ → Bool} {settled : ℕ → Bool} {si : SweepInput κ}
    (h : s.sweeps i = some (.compacting si))
    (heq : s'.sweeps = Function.update s.sweeps i (some (.dropping si))) :
    Moved s s' (.compact i ids pack cur settled)
  | scanned {i : ℕ} {si : SweepInput κ} (h : s.sweeps i = some (.dropping si))
    (heq : s'.sweeps = Function.update s.sweeps i
      (some (.deleting si (s.oldPins (si.count - 1))))) : Moved s s' (.scanPins i)
  | dropped {i : ℕ} {si : SweepInput κ} {batch : List Bytes}
    (h : s.sweeps i = some (.deleting si batch))
    (heq : s'.sweeps = Function.update s.sweeps i (some (.reporting si.epoch))) :
    Moved s s' (.dropPins i)
  | reported {i e : ℕ} {ok : Bool} (h : s.sweeps i = some (.reporting e))
    (heq : s'.sweeps = Function.update s.sweeps i none) : Moved s s' (.report i ok)

/-- What a step does to counter, acks and gates. -/
theorem step_moved (h : step P s a = some s') : Moved s s' a := by
  cases a with
  | restart =>
    cases h
    exact .restart rfl
  | startSweep st i =>
    simp only [step] at h
    split_ifs at h with hi
    cases h
    exact .started hi.2 rfl
  | input i fails =>
    simp only [step] at h
    split at h
    · rename_i e he
      split at h
      · cases h
        exact .unmarked he rfl
      · rename_i si hsi
        cases h
        exact .marked ⟨he, hsi⟩ rfl
    · simp at h
  | compact i ids pack cur settled =>
    simp only [step] at h
    split at h
    · rename_i si hsi
      split_ifs at h
      cases h
      exact .compacted hsi rfl
    · simp at h
  | scanPins i =>
    simp only [step] at h
    split at h
    · rename_i si hsi
      cases h
      exact .scanned hsi rfl
    · simp at h
  | dropPins i =>
    simp only [step] at h
    split at h
    · rename_i si batch hsi
      cases h
      exact .dropped hsi rfl
    · simp at h
  | report i ok =>
    simp only [step] at h
    split at h
    · rename_i e he
      cases h
      exact .reported he rfl
    · simp at h
  | _ =>
    refine .same ?_
    simp only [step, Option.map_eq_some_iff] at h
    grind

/-- The mark in memory is the one that was there, with more keys marked, or one just started. -/
theorem mark_step (h : step P s a = some s') {m : Mark κ} (hm : s'.mark = some m) :
    (∃ m', s.mark = some m' ∧ m'.count = m.count ∧ m'.eligible = m.eligible) ∨
      ∃ msg fails, s.handleMark msg fails = some m := by
  cases a <;> simp only [step, State.put, Option.map_eq_some_iff] at h <;> grind

/-- A sweep has the input it had, or one made just now. -/
theorem input_step (h : step P s a = some s') {i : ℕ} {sw : Sweep κ} {si : SweepInput κ}
    (hsw : s'.sweeps i = some sw) (hsi : sw.input = some si) :
    (∃ sw', s.sweeps i = some sw' ∧ sw'.input = some si) ∨
      ∃ e fails, s.sweepInputFor e fails = some si := by
  have hput : ∀ {j new}, s'.sweeps = Function.update s.sweeps j new →
      (∃ sw', s.sweeps i = some sw' ∧ sw'.input = some si) ∨ j = i ∧ new = some sw := by
    intro j new heq
    rw [heq, Function.update_apply] at hsw
    split_ifs at hsw with hij
    · exact .inr ⟨hij.symm, hsw⟩
    · exact .inl ⟨sw, hsw, hsi⟩
  cases step_moved h with
  | same heq => exact .inl ⟨sw, heq ▸ hsw, hsi⟩
  | restart heq =>
    rw [heq] at hsw
    cases hsw
  | started _ heq | unmarked _ heq | dropped _ heq =>
    refine (hput heq).elim .inl ?_
    rintro ⟨rfl, ⟨⟩⟩
    cases hsi
  | reported _ heq => exact (hput heq).elim .inl fun h => by simp at h
  | marked hj heq =>
    refine (hput heq).elim .inl ?_
    rintro ⟨rfl, ⟨⟩⟩
    cases hsi
    exact .inr ⟨_, _, hj.2⟩
  | compacted hj heq | scanned hj heq =>
    refine (hput heq).elim .inl ?_
    rintro ⟨rfl, ⟨⟩⟩
    exact .inl ⟨_, hj, hsi⟩

theorem live_of_pinned {si : SweepInput κ} {cur : κ → Bool} {settled : ℕ → Bool} {k : κ}
    (hc : s.isCorrupt k = false) (hp : s.pinned P k (si.count - 1)) :
    s.live P si cur settled k := by
  unfold State.live
  rw [hc]
  simp only [Bool.false_eq_true, if_false]
  split
  · rfl
  · rw [if_pos hp]
    split <;> rfl

/-- The pin rule: every sweep with a mark whose roots were read within `putTTL` after a reference's
gate found a key present keeps the key, unless it is corrupt. -/
theorem live_of_gate (hnow : 0 < now) {acts : List (Action κ)}
    (hok : Machine.Along (step P) (fun s a => unraced s a) (start now) acts)
    (hrun : Machine.run (step P) (start now) acts = some s) {i : ℕ} {si : SweepInput κ}
    (hsweep : s.sweeps i = some (.compacting si)) {g : Gate κ} (hg : g ∈ s.gates)
    (hroots : si.rootsAt < g.time + P.putTTL) (hcorrupt : s.isCorrupt g.key = false)
    (cur : κ → Bool) (settled : ℕ → Bool) : s.live P si cur settled g.key := by
  have hi := inv_run hnow hok hrun
  have hm := hi.held.sweeps i _ hsweep si rfl
  have hcount : si.count ≤ g.count + 1 := by
    by_contra hlt
    have := hi.roots_late hg hm (by omega)
    omega
  refine live_of_pinned hcorrupt ?_
  rcases hi.kept.pinned g hg with hd | ⟨v, hv, hle⟩
  · -- the pin was dropped for a mark two counts on, and this sweep's is no older
    have : s.dropped = 0 ∨ s.dropped < si.count := hi.dropped.sweeps i _ hsweep
    omega
  · simp only [State.pinned, hv, decide_eq_true_eq]
    omega

/-- The mark a sweep is about to compact with. -/
def State.compacts (s : State κ) (i : ℕ) : Option (SweepInput κ) :=
  match s.sweeps i with
  | some (.compacting si) => some si
  | _ => none

omit [DecidableEq κ] in
theorem sweeps_of_compacts {i : ℕ} {si : SweepInput κ} (h : si ∈ s.compacts i) :
    s.sweeps i = some (.compacting si) := by
  unfold State.compacts at h
  split at h
  · rename_i si' hs
    cases h
    exact hs
  · simp at h

namespace Old

/-- Twelve minutes between cycles, six for a put. -/
def params : Params ℕ where
  gcInterval := 12 * minute
  putTTL := 6 * minute
  gcInterval_gt := by decide
  putTTL_le := by decide
  tailOf k := beBytes 8 k

/-- The time between two cycles. -/
def interval : Action ℕ := .tick 720000000000

/-- A key in a sealed pack. -/
def stored : List (Action ℕ) := [interval, .put [7] 1, .sealSegment 1]

/-- A barrier is recorded, acked and confirmed. -/
def acked (epoch count : ℕ) (last : ℤ) : List (Action ℕ) :=
  [.record epoch last, .ack epoch count 2, .confirm epoch count 2]

/-- The mark of an epoch. -/
def marked (epoch i : ℕ) : List (Action ℕ) :=
  [.snapshot, .roots epoch fun _ => true, .handleMark i fun _ => none, .markDone]

/-- The register in the sweep phase of an epoch, as a poll reads it. -/
def sweepable (epoch : ℕ) (barrierAt : ℤ) (lastOK : ℕ) : GCState :=
  { epoch := epoch, phase := .sweep, barrierAt := barrierAt, acked := true, lastOK := lastOK }

/-- The register in the second sweep. -/
def second : GCState := sweepable 2 1440000000001 0

/-- The register in the third. -/
def third : GCState := sweepable 3 2160000000001 2

/-- A poll that finds a sweep to start. -/
def polled (st : GCState) : List (Action ℕ) := [.readGC, .checkSweep st]

/-- A sweep that has its input. -/
def begun (st : GCState) (i : ℕ) : List (Action ℕ) := [.startSweep st i, .input i fun _ => none]

/-- A sweep that compacts the pack. -/
def compacted (i : ℕ) : Action ℕ := .compact i [] 2 (fun _ => true) fun _ => false

/-- A put is answered between the second barrier's check and its record. -/
def gated : List (Action ℕ) :=
  stored ++ [.barrier, .check 1] ++ acked 1 1 0 ++ [.abort, interval, .barrier, .check 2,
    .missing [7] true] ++ acked 2 2 720000000001 ++ marked 2 0

/-- The first barrier, checked before an abort, is recorded after the second. -/
def barrierRace : List (Action ℕ) :=
  stored ++ [.barrier, .check 1, .abort, interval, .barrier, .check 2, .missing [7] true,
    .record 1 0] ++ acked 2 2 0 ++ marked 2 0 ++ polled second ++ begun second 0

/-- A key is answered for between the scan of the pins and their deletion. -/
def dropRace : List (Action ℕ) :=
  stored ++ [.missing [7] true, .barrier, .check 1] ++ acked 1 1 0 ++
    [.abort, interval, .barrier, .check 2] ++ acked 2 2 720000000001 ++ marked 2 0 ++
    polled second ++ begun second 0 ++ [compacted 0, .scanPins 0, interval, .missing [7] true,
      .dropPins 0, .report 0 true, .finish, .barrier, .check 3] ++ acked 3 3 1440000000001 ++
    marked 3 1 ++ polled third ++ begun third 1

/-- Two polls find the same sweep to do. The one sweep ends, which says that none runs, and the
sweep of the next epoch drops the pin that the other still honours. -/
def sweepRace : List (Action ℕ) :=
  gated ++ polled second ++ polled second ++ begun second 0 ++ begun second 1 ++
    [compacted 0, .scanPins 0, .dropPins 0, .report 0 true, .finish, interval, .barrier, .check 3] ++
    acked 3 3 1440000000001 ++ marked 3 1 ++ polled third ++ begun third 2 ++
    [compacted 2, .scanPins 2, .dropPins 2]

end Old

/-- A sweep at its second count keeps an unmarked key of an old pack for the pin of the first. -/
theorem live_of_gate_gated :
    ∃ s ∈ Machine.run (step Old.params) (start 1)
        (Old.gated ++ Old.polled Old.second ++ Old.begun Old.second 0),
      ∃ si, s.sweeps 0 = some (.compacting si) ∧ si.eligible 7 = some 1 ∧ si.eligBelow = 2 ∧
        7 ∉ si.marked ∧ s.live Old.params si (fun _ => true) (fun _ => false) 7 := by
  have hok : Machine.Along (step Old.params) (fun s a => unraced s a) (start 1)
      (Old.gated ++ Old.polled Old.second ++ Old.begun Old.second 0) := by
    decide +kernel
  have hend : ∃ s ∈ Machine.run (step Old.params) (start 1)
        (Old.gated ++ Old.polled Old.second ++ Old.begun Old.second 0),
      ∃ si ∈ s.compacts 0, si.eligible 7 = some 1 ∧ si.eligBelow = 2 ∧ 7 ∉ si.marked ∧
        ⟨7, 1440000000001, 1⟩ ∈ s.gates ∧ si.rootsAt < 1440000000001 + Old.params.putTTL ∧
        s.isCorrupt 7 = false := by
    decide +kernel
  obtain ⟨s, hrun, si, hsi, h1, h2, h3, hg, hroots, hcor⟩ := hend
  have hs := sweeps_of_compacts hsi
  exact ⟨s, hrun, si, hs, h1, h2, h3, live_of_gate (by decide) hok hrun hs hg hroots hcor _ _⟩

/-- The run ends in a sweep that would drop a key which a gate found present less than `putTTL`
before the roots were read. -/
def Old.DropsGated (acts : List (Action ℕ)) (i : ℕ) : Prop :=
  ∃ s ∈ Machine.run (step Old.params) (start 1) acts, ∃ si ∈ s.compacts i, ∃ g ∈ s.gates,
    si.rootsAt < g.time + Old.params.putTTL ∧ s.isCorrupt g.key = false ∧
    s.live Old.params si (fun _ => true) (fun _ => false) g.key = false

theorem gated_key_dead : Old.DropsGated Old.barrierRace 0 ∧ Old.DropsGated Old.dropRace 1 ∧
    Old.DropsGated Old.sweepRace 1 := by
  unfold Old.DropsGated
  decide +kernel

end Dstore.Pins

import Dstore.Fetch
import Dstore.Lib.Lists

/-!
# What a fetcher does with a key

A key handed in is at one of the places the fetcher keeps keys at (`held`), or has had an outcome;
as long as every reply has only records that were asked for, each once, none is lost and none comes
up twice (`Conserved`).
-/

namespace Dstore.Fetch

variable {κ ι : Type}

/-- The keys a batch has still to account for. -/
def Job.left [DecidableEq κ] (j : Job κ ι) : List (FetchKey κ ι) :=
  match j.phase with
  | .opening => j.keys
  | .reading _ _ => j.keys.filter fun fk => fk.key ∉ j.got
  | .returning todo => todo

/-- The keys of a batch that is being sent. -/
def Pc.left : Pc κ ι → List (FetchKey κ ι)
  | .sending job => job.keys
  | _ => []

/-- Every key that is somewhere in the fetcher. -/
def State.held [DecidableEq κ] (s : State κ ι) : List κ :=
  s.input ++ (s.acc.map (·.2) ++ s.pc.left ++ s.running.flatMap Job.left ++ s.retry).map (·.key)

section Batch

variable [DecidableEq κ] [DecidableEq ι]

variable {s' : State κ ι} {cfg : Config κ} {a : Action κ ι} {i : ℕ}

omit [DecidableEq κ] [DecidableEq ι] in
theorem place_cases (s : State κ ι) (fk : FetchKey κ ι) (order : List ι) :
    order.length ≤ fk.attempt ∧ s.place fk order = { s with out := s.out ++ [(fk.key, false)] } ∨
      ∃ node, order[fk.attempt]? = some node ∧
        s.place fk order = { s with acc := s.acc ++ [(node, { fk with via := order })] } := by
  unfold State.place
  rcases h : order[fk.attempt]? with _ | node
  · exact .inl ⟨List.getElem?_eq_none_iff.1 h, rfl⟩
  · exact .inr ⟨node, rfl, rfl⟩

omit [DecidableEq κ] in
/-- A key is placed by the read order of the client then, from the start where the view was
refreshed. -/
theorem route_eq (s : State κ ι) (fk : FetchKey κ ι) (c : Client κ ι) :
    s.refreshes fk = false ∧ s.route fk c = s.place fk (s.client.readOrder fk.key) ∨
      s.refreshes fk = true ∧ s.route fk c = { s with refreshed := true, client := c }.place
        { fk with attempt := 0 } (c.readOrder fk.key) := by
  unfold State.route
  rcases h : s.refreshes fk
  · exact .inl ⟨rfl, rfl⟩
  · exact .inr ⟨rfl, rfl⟩

omit [DecidableEq κ] in
theorem route_frame (s : State κ ι) (fk : FetchKey κ ι) (c : Client κ ι) :
    s.route fk c = { s with
      refreshed := (s.route fk c).refreshed
      client := (s.route fk c).client
      acc := (s.route fk c).acc
      out := (s.route fk c).out } := by
  rcases route_eq s fk c with ⟨_, h⟩ | ⟨_, h⟩ <;> rw [h]
  · rcases place_cases s fk (s.client.readOrder fk.key) with ⟨_, h⟩ | ⟨_, _, h⟩ <;> rw [h]
  · rcases place_cases { s with refreshed := true, client := c } { fk with attempt := 0 }
      (c.readOrder fk.key) with ⟨_, h⟩ | ⟨_, _, h⟩ <;> rw [h]

section Frame

variable (s : State κ ι) (fk : FetchKey κ ι) (c : Client κ ι)

omit [DecidableEq κ]

@[simp] theorem route_input : (s.route fk c).input = s.input := by rw [route_frame]

@[simp] theorem route_closed : (s.route fk c).closed = s.closed := by rw [route_frame]

@[simp] theorem route_inOpen : (s.route fk c).inOpen = s.inOpen := by rw [route_frame]

@[simp] theorem route_retry : (s.route fk c).retry = s.retry := by rw [route_frame]

@[simp] theorem route_running : (s.route fk c).running = s.running := by rw [route_frame]

@[simp] theorem route_jobDone : (s.route fk c).jobDone = s.jobDone := by rw [route_frame]

@[simp] theorem route_inflight : (s.route fk c).inflight = s.inflight := by rw [route_frame]

@[simp] theorem route_pc : (s.route fk c).pc = s.pc := by rw [route_frame]

@[simp] theorem route_handed : (s.route fk c).handed = s.handed := by rw [route_frame]

@[simp] theorem route_sent : (s.route fk c).sent = s.sent := by rw [route_frame]

end Frame

omit [DecidableEq κ] [DecidableEq ι] in
theorem batch_isPrefix (cfg : Config κ) : ∀ (keys : List (FetchKey κ ι)) (n bytes : ℕ),
    batch cfg n bytes keys <+: keys
  | [], _, _ => List.prefix_rfl
  | fk :: keys, n, bytes => by
    unfold batch
    split
    · exact List.cons_prefix_cons.2 ⟨rfl, batch_isPrefix cfg keys _ _⟩
    · exact List.nil_prefix

end Batch

variable [DecidableEq κ] [DecidableEq ι]

/-- What a step does to the state, by what the caller, the loop or a worker was at. -/
inductive Move (cfg : Config κ) (s : State κ ι) : Action κ ι → State κ ι → Prop
  | add (k : κ) (hc : s.closed = false) :
      Move cfg s (.add k) { s with input := s.input ++ [k], handed := s.handed ++ [k] }
  | finish : Move cfg s .finish { s with closed := true }
  | client (c : Client κ ι) : Move cfg s (.client c) { s with client := c }
  | cancel (hpc : s.pc ≠ .returned) : Move cfg s .cancel { s with pc := .stopped }
  | noMore {a : Action κ ι} (hpc : s.pc = .taking ∨ s.pc = .selecting) (hopen : s.inOpen = true)
      (hin : s.input = []) (hc : s.closed = true) :
      Move cfg s a { s with inOpen := false, pc := .taking }
  | drain (c : Client κ ι) (hpc : s.pc = .taking) :
      Move cfg s (.loop c) { s with pc := .draining }
  | drained (c : Client κ ι) (hpc : s.pc = .draining) (hr : s.retry = []) :
      Move cfg s (.loop c) { s with pc := .dispatching }
  | idle (c : Client κ ι) (hpc : s.pc = .dispatching) (hj : ¬ (s.inflight < cfg.jobs ∧ s.acc ≠ []))
      (he : ¬ (s.inOpen = false ∧ s.inflight = 0 ∧ s.acc = [])) :
      Move cfg s (.loop c) { s with pc := .selecting }
  | ends (c : Client κ ι) (hpc : s.pc = .dispatching) (hopen : s.inOpen = false)
      (hi : s.inflight = 0) (hacc : s.acc = []) :
      Move cfg s (.loop c) { s with pc := .returned }
  | routeIn {a : Action κ ι} (c : Client κ ι) {k : κ} {rest : List κ}
      (ha : a = .loop c ∨ a = .selectIn c) (hpc : s.pc = .taking ∨ s.pc = .selecting)
      (hopen : s.inOpen = true) (hin : s.input = k :: rest) :
      Move cfg s a ({ s with input := rest, pc := .taking }.route { key := k } c)
  | routeRetry {a : Action κ ι} (c : Client κ ι) {r : FetchKey κ ι}
      {rest : List (FetchKey κ ι)} {pc : Pc κ ι} (ha : a = .loop c ∨ a = .selectRetry c)
      (hpc : s.pc = .draining ∧ pc = .draining ∨ s.pc = .selecting ∧ pc = .taking)
      (hr : s.retry = r :: rest) :
      Move cfg s a ({ s with retry := rest, pc := pc }.route r c)
  | pick (id : ι) (hpc : s.pc = .dispatching) (hj : s.inflight < cfg.jobs)
      (hb : s.acc.best cfg id = true) :
      Move cfg s (.pick id) { s with
        acc := s.acc.filter (·.1 ≠ id) ++
          ((s.acc.keys id).drop (batch cfg 0 0 (s.acc.keys id)).length).map (id, ·)
        inflight := s.inflight + 1
        pc := .sending { node := id, keys := batch cfg 0 0 (s.acc.keys id) } }
  | hand {job : Job κ ι} (hpc : s.pc = .sending job) :
      Move cfg s .hand { s with running := s.running ++ [job], pc := .dispatching }
  | done (hpc : s.pc = .selecting) (hd : 0 < s.jobDone) :
      Move cfg s .selectDone { s with
        jobDone := s.jobDone - 1, inflight := s.inflight - 1, pc := .taking }
  | unsent (i : ℕ) {e : Event κ} (c : Client κ ι) {l₁ l₂ : List (Job κ ι)} {j : Job κ ι}
      (hr : s.running = l₁ ++ j :: l₂) (hj : j.phase = .opening)
      (he : e = .dialFails ∨ e = .writeFails) :
      Move cfg s (.get i e) { s with
        client := c, running := l₁ ++ { j with phase := .returning j.keys } :: l₂ }
  | refused (i : ℕ) (b : Bool) (c : Client κ ι) {l₁ l₂ : List (Job κ ι)} {j : Job κ ι}
      (hr : s.running = l₁ ++ j :: l₂) (hj : j.phase = .opening) :
      Move cfg s (.get i (.refused b)) { s with
        client := c
        running := l₁ ++ { j with phase := .returning j.keys } :: l₂
        sent := s.sent ++ j.keys.map fun fk => (j.node, fk.key) }
  | answered (i : ℕ) (recs : List (Option κ)) (whole : Bool) {l₁ l₂ : List (Job κ ι)}
      {j : Job κ ι} (hi : s.running[i]? = some j) (hr : s.running = l₁ ++ j :: l₂)
      (hj : j.phase = .opening) :
      Move cfg s (.get i (.answer recs whole)) { s with
        running := l₁ ++ { j with phase := .reading recs whole } :: l₂
        sent := s.sent ++ j.keys.map fun fk => (j.node, fk.key) }
  | record (i : ℕ) {k : κ} {recs : List (Option κ)} {whole : Bool} {l₁ l₂ : List (Job κ ι)}
      {j : Job κ ι} (hr : s.running = l₁ ++ j :: l₂)
      (hj : j.phase = .reading (some k :: recs) whole) :
      Move cfg s (.read i) { s with
        running := l₁ ++ { j with got := k :: j.got, phase := .reading recs whole } :: l₂
        out := s.out ++ [(k, true)] }
  | corrupt (i : ℕ) {recs : List (Option κ)} {whole : Bool} {l₁ l₂ : List (Job κ ι)}
      {j : Job κ ι} (hr : s.running = l₁ ++ j :: l₂)
      (hj : j.phase = .reading (none :: recs) whole) :
      Move cfg s (.read i) { s with
        running := l₁ ++ { j with phase := .reading recs whole } :: l₂ }
  | ended (i : ℕ) (c : Client κ ι) {whole : Bool} {l₁ l₂ : List (Job κ ι)} {j : Job κ ι}
      (hr : s.running = l₁ ++ j :: l₂) (hj : j.phase = .reading [] whole) :
      Move cfg s (.read i) { s with
        client := c
        running := l₁ ++
          { j with phase := .returning (j.keys.filter fun fk => fk.key ∉ j.got) } :: l₂ }
  | back (i : ℕ) {fk : FetchKey κ ι} {todo : List (FetchKey κ ι)} {l₁ l₂ : List (Job κ ι)}
      {j : Job κ ι} (hr : s.running = l₁ ++ j :: l₂) (hj : j.phase = .returning (fk :: todo)) :
      Move cfg s (.giveBack i) { s with
        retry := s.retry ++ [{ fk with attempt := fk.attempt + 1 }]
        running := l₁ ++ { j with phase := .returning todo } :: l₂ }
  | finished (i : ℕ) {l₁ l₂ : List (Job κ ι)} {j : Job κ ι}
      (hr : s.running = l₁ ++ j :: l₂) (hj : j.phase = .returning []) :
      Move cfg s (.giveBack i) { s with running := l₁ ++ l₂, jobDone := s.jobDone + 1 }

variable {s s' : State κ ι}

/-- The loop's step is one of the moves. -/
theorem move_of_loop {c : Client κ ι} (h : s.loop cfg c = some s') :
    Move cfg s (.loop c) s' := by
  unfold State.loop at h
  split at h
  · next hpc =>
    split at h
    · next hopen =>
      split at h
      · next k rest hin =>
        cases h
        have : Move cfg s (.loop c) _ := .routeIn c (.inl rfl) (.inl hpc) hopen hin
        rwa [← hpc] at this
      · next hin =>
        split at h
        · next hc =>
          cases h
          have : Move cfg s (.loop c) _ := .noMore (.inl hpc) hopen hin hc
          rwa [← hpc] at this
        · cases h
          exact .drain c hpc
    · cases h
      exact .drain c hpc
  · next hpc =>
    split at h
    · next r rest hr =>
      cases h
      have : Move cfg s (.loop c) _ := .routeRetry c (.inl rfl) (.inl ⟨hpc, rfl⟩) hr
      rwa [← hpc] at this
    · next hr =>
      cases h
      exact .drained c hpc hr
  · next hpc =>
    split at h
    · cases h
    · next hj =>
      split at h
      · next he =>
        cases h
        simp only [Bool.and_eq_true, Bool.not_eq_true', decide_eq_true_eq] at he
        exact .ends c hpc he.1.1 he.1.2 he.2
      · next he =>
        cases h
        simp only [Bool.and_eq_true, Bool.not_eq_true', decide_eq_true_eq, and_assoc] at he
        exact .idle c hpc hj he
  · cases h

/-- A batch's step is one of the moves. -/
theorem move_of_get {e : Event κ} (h : s.get i e = some s') :
    Move cfg s (.get i e) s' := by
  unfold State.get at h
  split at h
  · cases h
  · next j hi =>
    obtain ⟨l₁, l₂, hr, hset, _⟩ := Lists.exists_split hi
    split at h
    · next hj =>
      simp only [hset] at h
      cases e with
      | dialFails => cases h; exact .unsent i _ hr hj (.inl rfl)
      | writeFails => cases h; exact .unsent i _ hr hj (.inr rfl)
      | refused b => cases h; exact .refused i b _ hr hj
      | answer recs whole => cases h; exact .answered i recs whole hi hr hj
    · cases h

theorem move_of_read (h : s.read i = some s') : Move cfg s (.read i) s' := by
  unfold State.read at h
  split at h
  · cases h
  · next j hi =>
    obtain ⟨l₁, l₂, hr, hset, _⟩ := Lists.exists_split hi
    simp only [hset] at h
    split at h
    · next hj => cases h; exact .record i hr hj
    · next hj => cases h; exact .corrupt i hr hj
    · next hj => cases h; exact .ended i _ hr hj
    · cases h

/-- So is the return of keys. -/
theorem move_of_giveBack (h : s.giveBack i = some s') :
    Move cfg s (.giveBack i) s' := by
  unfold State.giveBack at h
  split at h
  · cases h
  · next j hi =>
    obtain ⟨l₁, l₂, hr, hset, herase⟩ := Lists.exists_split hi
    simp only [hset, herase] at h
    split at h
    · next hj =>
      split at h
      · cases h; exact .back i hr hj
      · cases h
    · next hj => cases h; exact .finished i hr hj
    · cases h

/-- A step is one of the moves. -/
theorem move_of_step (h : step cfg s a = some s') : Move cfg s a s' := by
  cases a with
  | add k =>
    simp only [step] at h
    split at h
    · next hc => cases h; exact .add k hc.1
    · cases h
  | finish =>
    simp only [step] at h
    split at h
    · cases h; exact .finish
    · cases h
  | client c => cases h; exact .client c
  | cancel =>
    simp only [step] at h
    split at h
    · cases h
    · next hpc => cases h; exact .cancel hpc
  | loop c => exact move_of_loop h
  | pick id =>
    simp only [step, State.pickBatch] at h
    split at h
    · next hp => cases h; exact .pick id hp.1 hp.2.1 hp.2.2
    · cases h
  | hand =>
    simp only [step, State.hand] at h
    split at h
    · next hpc =>
      split at h
      · cases h; exact .hand hpc
      · cases h
    · cases h
  | selectIn c =>
    simp only [step, State.selectIn] at h
    split at h
    · next hp =>
      split at h
      · next hin => cases h; exact .routeIn c (.inr rfl) (.inr hp.1) hp.2 hin
      · next hin =>
        split at h
        · next hc => cases h; exact .noMore (.inr hp.1) hp.2 hin hc
        · cases h
    · cases h
  | selectRetry c =>
    simp only [step, State.selectRetry] at h
    split at h
    · next hp =>
      split at h
      · next hr => cases h; exact .routeRetry c (.inr rfl) (.inr ⟨hp, rfl⟩) hr
      · cases h
    · cases h
  | selectDone =>
    simp only [step, State.selectDone] at h
    split at h
    · next hp => cases h; exact .done hp.1 hp.2
    · cases h
  | get i e =>
    simp only [step] at h
    split at h
    · cases h
    · exact move_of_get h
  | read i =>
    simp only [step] at h
    split at h
    · cases h
    · exact move_of_read h
  | giveBack i =>
    simp only [step] at h
    split at h
    · cases h
    · exact move_of_giveBack h

/-- Whether the loop holds a batch. -/
def Pc.busy : Pc κ ι → ℕ
  | .sending _ => 1
  | _ => 0

/-- The batches in flight are those of the workers, those done and the one being handed over, and
the loop sees no key left once it finds none in flight. -/
structure Booked (cfg : Config κ) (s : State κ ι) : Prop where
  inflight : s.pc ≠ .stopped → s.inflight = s.running.length + s.jobDone + s.pc.busy
  le : s.inflight ≤ cfg.jobs
  closed : s.inOpen = false → s.closed = true ∧ s.input = []
  drained : (s.pc = .dispatching ∨ s.pc = .returned) → s.inflight = 0 → s.retry = []
  ended : s.pc = .returned → s.inOpen = false ∧ s.inflight = 0 ∧ s.acc = []
  awake : s.pc = .selecting → s.inOpen = true ∨ 0 < s.inflight ∨ cfg.jobs = 0

omit [DecidableEq κ] [DecidableEq ι] in
/-- A batch that goes on leaves the books as they are. -/
theorem Booked.worker (h : Booked cfg s) {l₁ l₂ : List (Job κ ι)}
    {j j' : Job κ ι} (hr : s.running = l₁ ++ j :: l₂) (hr' : s'.running = l₁ ++ j' :: l₂)
    (hpc : s'.pc = s.pc)
    (hbooks : (s'.inflight, s'.jobDone, s'.inOpen, s'.closed, s'.input, s'.acc) =
      (s.inflight, s.jobDone, s.inOpen, s.closed, s.input, s.acc)) :
    Booked cfg s' := by
  simp only [Prod.mk.injEq] at hbooks
  obtain ⟨h1, h2, h3, h4, h5, h6⟩ := hbooks
  have hpos : s.pc ≠ .stopped → 0 < s.inflight := by
    intro hs
    rw [h.inflight hs, hr, List.length_append, List.length_cons]
    omega
  constructor
  · rw [h1, h2, hpc, hr']
    intro hs
    rw [h.inflight hs, hr]
    simp
  · rw [h1]
    exact h.le
  · rw [h3, h4, h5]
    exact h.closed
  · rw [h1, hpc]
    intro hs hi
    have := hpos (by rcases hs with hs | hs <;> simp [hs])
    omega
  · rw [h1, h3, h6, hpc]
    exact h.ended
  · rw [h1, h3, hpc]
    exact h.awake

/-- Every move keeps the books. -/
theorem Booked.move (h : Booked cfg s) (hm : Move cfg s a s') :
    Booked cfg s' := by
  cases hm with
  | add k hc =>
    refine ⟨h.inflight, h.le, fun ho => ?_, h.drained, h.ended, h.awake⟩
    simp [(h.closed ho).1] at hc
  | finish =>
    exact ⟨h.inflight, h.le, fun ho => ⟨rfl, (h.closed ho).2⟩, h.drained, h.ended, h.awake⟩
  | client c => exact ⟨h.inflight, h.le, h.closed, h.drained, h.ended, h.awake⟩
  | cancel hpc => exact ⟨by simp, h.le, h.closed, by simp, by simp, by simp⟩
  | noMore hpc hopen hin hc =>
    refine ⟨fun _ => ?_, h.le, fun _ => ⟨hc, hin⟩, by simp, by simp, by simp⟩
    have := h.inflight (by rcases hpc with hpc | hpc <;> simp [hpc])
    rcases hpc with hpc | hpc <;> simpa [hpc, Pc.busy] using this
  | drain c hpc =>
    refine ⟨fun _ => ?_, h.le, h.closed, by simp, by simp, by simp⟩
    simpa [hpc, Pc.busy] using h.inflight (by simp [hpc])
  | drained c hpc hr =>
    refine ⟨fun _ => ?_, h.le, h.closed, fun _ _ => hr, by simp, by simp⟩
    simpa [hpc, Pc.busy] using h.inflight (by simp [hpc])
  | idle c hpc hj he =>
    refine ⟨fun _ => ?_, h.le, h.closed, by simp, by simp, fun _ => ?_⟩
    · simpa [hpc, Pc.busy] using h.inflight (by simp [hpc])
    · show s.inOpen = true ∨ 0 < s.inflight ∨ cfg.jobs = 0
      by_contra hn
      simp only [not_or, Bool.not_eq_true, Nat.pos_iff_ne_zero, not_not] at hn
      refine he ⟨hn.1, hn.2.1, ?_⟩
      by_contra hacc
      exact hj ⟨by omega, hacc⟩
  | ends c hpc hopen hi hacc =>
    refine ⟨fun _ => ?_, h.le, h.closed, fun _ => h.drained (.inl hpc),
      fun _ => ⟨hopen, hi, hacc⟩, by simp⟩
    simpa [hpc, Pc.busy] using h.inflight (by simp [hpc])
  | routeIn c ha hpc hopen hin =>
    have hi := h.inflight (by rcases hpc with hpc | hpc <;> simp [hpc])
    refine ⟨fun _ => ?_, by simpa using h.le, by simp [hopen], by simp, by simp, by simp⟩
    rcases hpc with hpc | hpc <;> simpa [hpc, Pc.busy] using hi
  | routeRetry c ha hpc hr =>
    have hi := h.inflight (by rcases hpc with hpc | hpc <;> simp [hpc])
    rcases hpc with ⟨hpc, rfl⟩ | ⟨hpc, rfl⟩ <;>
      exact ⟨fun _ => by simpa [hpc, Pc.busy] using hi, by simpa using h.le,
        by simpa using h.closed, by simp, by simp, by simp⟩
  | pick id hpc hj hb =>
    refine ⟨fun _ => ?_, hj, h.closed, by simp, by simp, by simp⟩
    have := h.inflight (by simp [hpc])
    simp only [hpc, Pc.busy] at this ⊢
    omega
  | hand hpc =>
    have hi := h.inflight (by simp [hpc])
    refine ⟨fun _ => ?_, h.le, h.closed, fun _ h0 => ?_, by simp, by simp⟩
    · simp only [hpc, Pc.busy, List.length_append, List.length_singleton] at hi ⊢
      omega
    · simp only [hpc, Pc.busy] at hi h0
      omega
  | done hpc hd =>
    refine ⟨fun _ => ?_, (Nat.sub_le _ _).trans h.le, h.closed, by simp, by simp, by simp⟩
    have := h.inflight (by simp [hpc])
    simp only [hpc, Pc.busy] at this ⊢
    omega
  | unsent i c hr hj he => exact h.worker hr rfl rfl rfl
  | refused i b c hr hj => exact h.worker hr rfl rfl rfl
  | answered i recs whole hi hr hj => exact h.worker hr rfl rfl rfl
  | record i hr hj => exact h.worker hr rfl rfl rfl
  | corrupt i hr hj => exact h.worker hr rfl rfl rfl
  | ended i c hr hj => exact h.worker hr rfl rfl rfl
  | back i hr hj => exact h.worker hr rfl rfl rfl
  | finished i hr hj =>
    refine ⟨fun hs => ?_, h.le, h.closed, h.drained, h.ended, h.awake⟩
    rw [h.inflight hs, hr]
    simp only [List.length_append, List.length_cons]
    omega

/-- A reply has only records that were asked for, each at most once. -/
def solicited (s : State κ ι) : Action κ ι → Bool
  | .get i (.answer recs _) =>
    match s.running[i]? with
    | none => true
    | some j => (recs.filterMap id).Nodup &&
        (recs.filterMap id).all fun k => k ∈ j.keys.map (·.key)
  | _ => true

/-- The records a worker has still to read were asked for and have not been read. -/
def Job.Ok (j : Job κ ι) : Prop :=
  match j.phase with
  | .opening => j.got = []
  | .reading recs _ => (recs.filterMap id).Nodup ∧
      ∀ k ∈ recs.filterMap id, k ∈ j.keys.map (·.key) ∧ k ∉ j.got
  | .returning _ => True

/-- Batches hold what they were made for. -/
structure Asked (s : State κ ι) : Prop where
  running : ∀ j ∈ s.running, j.Ok
  sending : ∀ job, s.pc = .sending job → job.phase = .opening ∧ job.Ok

omit [DecidableEq κ] [DecidableEq ι] in
theorem Asked.worker (h : Asked s) {l₁ l₂ : List (Job κ ι)} {j j' : Job κ ι}
    (hr : s.running = l₁ ++ j :: l₂) (hr' : s'.running = l₁ ++ j' :: l₂) (hpc : s'.pc = s.pc)
    (hj : j.Ok → j'.Ok) : Asked s' := by
  refine ⟨fun x hx => ?_, by simpa only [hpc] using h.sending⟩
  rw [hr'] at hx
  rcases List.mem_append.1 hx with hx | hx
  · exact h.running x (by simp [hr, hx])
  · rcases List.mem_cons.1 hx with rfl | hx
    · exact hj (h.running j (by simp [hr]))
    · exact h.running x (by simp [hr, hx])

/-- Every move keeps batches to what they were made for. -/
theorem Asked.move (h : Asked s) (ha : solicited s a = true)
    (hm : Move cfg s a s') : Asked s' := by
  cases hm with
  | add | finish | client => exact ⟨h.running, h.sending⟩
  | cancel | noMore | drain | drained | idle | ends | done => exact ⟨h.running, by simp⟩
  | routeIn => exact ⟨by simpa using h.running, by simp⟩
  | routeRetry _ _ hpc =>
    refine ⟨by simpa using h.running, ?_⟩
    rcases hpc with ⟨_, rfl⟩ | ⟨_, rfl⟩ <;> simp
  | pick id =>
    refine ⟨h.running, fun job hjob => ?_⟩
    cases hjob
    exact ⟨rfl, rfl⟩
  | hand hpc =>
    refine ⟨fun j hj => ?_, by simp⟩
    rcases List.mem_append.1 hj with hj | hj
    · exact h.running j hj
    · rw [List.mem_singleton.1 hj]
      exact (h.sending _ hpc).2
  | unsent i c hr hj he => exact h.worker hr rfl rfl fun _ => trivial
  | refused i b c hr hj => exact h.worker hr rfl rfl fun _ => trivial
  | @answered i recs whole l₁ l₂ j hi hr hj =>
    refine h.worker hr rfl rfl fun hok => ?_
    have hgot : j.got = [] := by simpa [Job.Ok, hj] using hok
    simp only [solicited, hi, Bool.and_eq_true, decide_eq_true_eq, List.all_eq_true] at ha
    exact ⟨ha.1, fun k hk => ⟨ha.2 k hk, by simp [hgot]⟩⟩
  | @record i k recs whole l₁ l₂ j hr hj =>
    refine h.worker hr rfl rfl fun hok => ?_
    simp only [Job.Ok, hj, List.filterMap_cons, id_eq, List.nodup_cons, List.mem_cons,
      forall_eq_or_imp] at hok
    obtain ⟨hn, _, hk⟩ := hok
    refine ⟨hn.2, fun x hx => ⟨(hk x hx).1, ?_⟩⟩
    simp only [List.mem_cons, not_or]
    exact ⟨fun h => hn.1 (h ▸ hx), (hk x hx).2⟩
  | @corrupt i recs whole l₁ l₂ j hr hj =>
    refine h.worker hr rfl rfl fun hok => ?_
    simpa [Job.Ok, hj] using hok
  | ended i c hr hj => exact h.worker hr rfl rfl fun _ => trivial
  | back i hr hj => exact h.worker hr rfl rfl fun _ => trivial
  | finished i hr hj =>
    refine ⟨fun x hx => h.running x ?_, h.sending⟩
    rw [hr]
    rcases List.mem_append.1 hx with hx | hx <;> simp [hx]

/-- Every key handed in is held or has had an outcome, as often as it was handed in, unless the
fetch was stopped. -/
def Conserved (s : State κ ι) : Prop :=
  s.pc ≠ .stopped → ∀ k, s.held.count k + (s.out.map (·.1)).count k = s.handed.count k

omit [DecidableEq ι] in
theorem count_held (s : State κ ι) (k : κ) : s.held.count k =
    s.input.count k + (s.acc.map (·.2.key)).count k + (s.pc.left.map (·.key)).count k +
      (s.running.flatMap fun j => j.left.map (·.key)).count k + (s.retry.map (·.key)).count k := by
  simp only [State.held, List.count_append, List.map_append, List.map_map, List.map_flatMap,
    Function.comp_def]
  omega

omit [DecidableEq ι] in
/-- A batch that goes on loses no key and makes none. -/
theorem Conserved.worker (h : Conserved s) {l₁ l₂ : List (Job κ ι)}
    {j j' : Job κ ι} (hr : s.running = l₁ ++ j :: l₂) (hr' : s'.running = l₁ ++ j' :: l₂)
    (hrest : (s'.input, s'.acc, s'.pc, s'.handed) = (s.input, s.acc, s.pc, s.handed))
    (hj : ∀ k, (j'.left.map (·.key)).count k + (s'.retry.map (·.key)).count k +
        (s'.out.map (·.1)).count k =
      (j.left.map (·.key)).count k + (s.retry.map (·.key)).count k + (s.out.map (·.1)).count k) :
    Conserved s' := by
  simp only [Prod.mk.injEq] at hrest
  obtain ⟨h1, h2, h3, h4⟩ := hrest
  intro hs k
  have hk := h (h3 ▸ hs) k
  have hjk := hj k
  rw [count_held, hr] at hk
  rw [count_held, h1, h2, h3, h4, hr']
  simp only [List.flatMap_append, List.flatMap_cons, List.count_append] at hk ⊢
  omega

omit [DecidableEq ι] in
theorem Conserved.frame (h : Conserved s) (hs : s.pc ≠ .stopped)
    (hpc : s'.pc.left = s.pc.left)
    (hrest : (s'.input, s'.acc, s'.running, s'.retry, s'.out, s'.handed) =
      (s.input, s.acc, s.running, s.retry, s.out, s.handed)) : Conserved s' := by
  simp only [Prod.mk.injEq] at hrest
  obtain ⟨h1, h2, h3, h4, h5, h6⟩ := hrest
  intro _ k
  rw [count_held, h1, h2, h3, h4, h5, h6, hpc, ← count_held]
  exact h hs k

theorem count_route (s : State κ ι) (fk : FetchKey κ ι) (c : Client κ ι) (k : κ) :
    ((s.route fk c).acc.map (·.2.key)).count k + ((s.route fk c).out.map (·.1)).count k =
      (s.acc.map (·.2.key)).count k + (s.out.map (·.1)).count k + [fk.key].count k := by
  rcases route_eq s fk c with ⟨_, h⟩ | ⟨_, h⟩ <;> rw [h]
  · rcases place_cases s fk (s.client.readOrder fk.key) with ⟨_, h⟩ | ⟨_, _, h⟩ <;> rw [h] <;>
      simp only [List.map_append, List.map_cons, List.map_nil, List.count_append] <;> omega
  · rcases place_cases { s with refreshed := true, client := c } { fk with attempt := 0 }
      (c.readOrder fk.key) with ⟨_, h⟩ | ⟨_, _, h⟩ <;> rw [h] <;>
      simp only [List.map_append, List.map_cons, List.map_nil, List.count_append] <;> omega

theorem count_pick (cfg : Config κ) (acc : Acc κ ι) (id : ι) (k : κ) :
    ((acc.filter (·.1 ≠ id) ++
        ((acc.keys id).drop (batch cfg 0 0 (acc.keys id)).length).map (id, ·)).map
          (·.2.key)).count k + ((batch cfg 0 0 (acc.keys id)).map (·.key)).count k =
      (acc.map (·.2.key)).count k := by
  have hbatch : batch cfg 0 0 (acc.keys id) ++
      (acc.keys id).drop (batch cfg 0 0 (acc.keys id)).length = acc.keys id :=
    List.prefix_iff_eq_append.1 (batch_isPrefix cfg _ 0 0)
  have hkeys := congrArg (fun l => (l.map (·.key)).count k) hbatch
  have hperm := ((List.filter_append_perm (fun x => decide (x.1 = id)) acc).map
    (·.2.key)).count_eq k
  simp only [List.map_append, List.count_append, List.map_map, Acc.keys, Function.comp_def,
    ne_eq, decide_not] at hkeys hperm ⊢
  omega

omit [DecidableEq ι] in
/-- A key that is read leaves its batch. -/
theorem count_left_record {j : Job κ ι} {k : κ} {recs' : List (Option κ)} {whole : Bool}
    (recs : List (Option κ)) (hj : j.phase = .reading recs' whole)
    (hk : k ∈ j.keys.map (·.key)) (hgot : k ∉ j.got)
    (hone : (j.left.map (·.key)).count k ≤ 1) (x : κ) :
    (({ j with got := k :: j.got, phase := .reading recs whole } : Job κ ι).left.map
      (·.key)).count x + [k].count x = (j.left.map (·.key)).count x := by
  have hleft : ({ j with got := k :: j.got, phase := .reading recs whole } : Job κ ι).left.map
      (·.key) = (j.left.map (·.key)).filter (· ≠ k) := by
    simp only [Job.left, hj, List.filter_map, List.filter_filter]
    exact congrArg _ (List.filter_congr fun y _ => by simp)
  have hmem : k ∈ j.left.map (·.key) := by
    obtain ⟨fk, hfk, rfl⟩ := List.mem_map.1 hk
    simp only [Job.left, hj]
    exact List.mem_map.2 ⟨fk, List.mem_filter.2 ⟨hfk, by simpa using hgot⟩, rfl⟩
  rw [hleft]
  by_cases hx : x = k
  · have := List.count_pos_iff.2 hmem
    have hzero : ((j.left.map (·.key)).filter (· ≠ k)).count k = 0 :=
      List.count_eq_zero.2 (by simp)
    rw [hx, hzero, List.count_singleton_self]
    omega
  · have hzero : [k].count x = 0 := List.count_eq_zero.2 (by simpa using hx)
    rw [List.count_filter (by simpa using hx), hzero, Nat.add_zero]

/-- Every move keeps each key in one place. -/
theorem Conserved.move (h : Conserved s) (hn : s.handed.Nodup) (hasked : Asked s)
    (hm : Move cfg s a s') : Conserved s' := by
  cases hm with
  | add k hc =>
    intro hs x
    have := h hs x
    simp only [count_held, List.count_append] at this ⊢
    omega
  | finish | client => exact h
  | cancel hpc => exact fun hs => absurd rfl hs
  | noMore hpc =>
    rcases hpc with hpc | hpc <;> exact h.frame (by simp [hpc]) (by simp [hpc, Pc.left]) rfl
  | drain c hpc => exact h.frame (by simp [hpc]) (by simp [hpc, Pc.left]) rfl
  | drained c hpc => exact h.frame (by simp [hpc]) (by simp [hpc, Pc.left]) rfl
  | idle c hpc => exact h.frame (by simp [hpc]) (by simp [hpc, Pc.left]) rfl
  | ends c hpc => exact h.frame (by simp [hpc]) (by simp [hpc, Pc.left]) rfl
  | done hpc => exact h.frame (by simp [hpc]) (by simp [hpc, Pc.left]) rfl
  | @routeIn _ c k rest ha hpc hopen hin =>
    intro _ x
    have hx := h (by rcases hpc with hpc | hpc <;> simp [hpc]) x
    have hc := count_route { s with input := rest, pc := .taking } { key := k } c x
    have hkeys : s.pc.left = [] := by rcases hpc with hpc | hpc <;> rw [hpc] <;> rfl
    rw [count_held, hin, hkeys, ← List.singleton_append, List.count_append] at hx
    rw [count_held]
    simp only [route_input, route_pc, route_running, route_retry, route_handed, Pc.left] at hc ⊢
    omega
  | @routeRetry _ c r rest pc ha hpc hr =>
    intro _ x
    have hx := h (by rcases hpc with hpc | hpc <;> simp [hpc]) x
    have hc := count_route { s with retry := rest, pc := pc } r c x
    have hkeys : s.pc.left = [] ∧ pc.left = [] := by
      rcases hpc with ⟨hpc, rfl⟩ | ⟨hpc, rfl⟩ <;> rw [hpc] <;> exact ⟨rfl, rfl⟩
    rw [count_held, hr, hkeys.1, List.map_cons, ← List.singleton_append, List.count_append] at hx
    rw [count_held]
    simp only [route_input, route_pc, route_running, route_retry, route_handed, hkeys.2] at hc ⊢
    omega
  | pick id hpc hj hb =>
    intro _ x
    have := h (by simp [hpc]) x
    have hc := count_pick cfg s.acc id x
    simp only [count_held, hpc, Pc.left, List.map_nil, List.count_nil] at this ⊢
    omega
  | hand hpc =>
    intro _ x
    have := h (by simp [hpc]) x
    have hleft : ∀ job, s.pc = .sending job → job.left = job.keys := fun job hjob => by
      simp only [Job.left, (hasked.sending job hjob).1]
    simp only [count_held, hpc, Pc.left, List.flatMap_append, List.flatMap_cons,
      List.flatMap_nil, List.append_nil, List.count_append, hleft _ hpc, List.map_nil,
      List.count_nil] at this ⊢
    omega
  | unsent i c hr hj he => exact h.worker hr rfl rfl fun k => by simp [Job.left, hj]
  | refused i b c hr hj => exact h.worker hr rfl rfl fun k => by simp [Job.left, hj]
  | @answered i recs whole l₁ l₂ j hi hr hj =>
    have hgot : j.got = [] := by simpa [Job.Ok, hj] using hasked.running j (by simp [hr])
    exact h.worker hr rfl rfl fun k => by simp [Job.left, hj, hgot]
  | @record i k recs whole l₁ l₂ j hr hj =>
    intro hs
    have hok := hasked.running j (by simp [hr])
    simp only [Job.Ok, hj, List.filterMap_cons, id_eq, List.mem_cons, forall_eq_or_imp] at hok
    obtain ⟨_, ⟨hk, hgot⟩, _⟩ := hok
    have hone : (j.left.map (·.key)).count k ≤ 1 := by
      have hall := h hs k
      have hle := List.nodup_iff_count_le_one.1 hn k
      rw [count_held, hr] at hall
      simp only [List.flatMap_append, List.flatMap_cons, List.count_append] at hall
      omega
    refine h.worker hr rfl rfl (fun x => ?_) hs
    have := count_left_record recs hj hk hgot hone x
    simp only [List.map_append, List.map_cons, List.map_nil, List.count_append]
    omega
  | corrupt i hr hj => exact h.worker hr rfl rfl fun k => by simp [Job.left, hj]
  | ended i c hr hj =>
    refine h.worker hr rfl rfl fun k => ?_
    simp only [Job.left, hj]
  | back i hr hj =>
    refine h.worker hr rfl rfl fun k => ?_
    simp only [Job.left, hj, List.map_append, List.map_cons, List.map_nil, List.count_append,
      List.count_cons, List.count_nil]
    omega
  | finished i hr hj =>
    intro hs x
    have := h hs x
    rw [count_held, hr] at this
    rw [count_held]
    simpa [Job.left, hj] using this

omit [DecidableEq ι] in
theorem Conserved.outcomes (h : Conserved s) (hs : s.pc ≠ .stopped)
    (hn : s.handed.Nodup) :
    (s.out.map (·.1)).Nodup ∧ ∀ k ∈ s.out.map (·.1), k ∈ s.handed := by
  constructor
  · refine List.nodup_iff_count_le_one.2 fun k => ?_
    have := List.nodup_iff_count_le_one.1 hn k
    have := h hs k
    omega
  · intro k hk
    have := List.count_pos_iff.2 hk
    have := h hs k
    exact List.count_pos_iff.1 (by omega)

omit [DecidableEq ι] in
theorem Booked.held_eq_nil (h : Booked cfg s) (hpc : s.pc = .returned) :
    s.held = [] := by
  obtain ⟨hopen, hi, hacc⟩ := h.ended hpc
  have hrun := h.inflight (by simp [hpc])
  have : s.running = [] := List.length_eq_zero_iff.1 (by omega)
  simp [State.held, (h.closed hopen).2, hacc, hpc, Pc.left, this, h.drained (.inr hpc) hi]

/-- What every reachable state of the fetcher keeps. -/
structure Inv (cfg : Config κ) (s : State κ ι) : Prop where
  booked : Booked cfg s
  asked : Asked s
  conserved : s.handed.Nodup → Conserved s

theorem handed_isPrefix (hm : Move cfg s a s') : s.handed <+: s'.handed := by
  cases hm with
  | add k => exact List.prefix_append _ _
  | routeIn | routeRetry => simp
  | _ => exact List.prefix_rfl

omit [DecidableEq ι] in
theorem Inv.start (cfg : Config κ) (c : Client κ ι) : Inv cfg (State.start c) where
  booked := by constructor <;> simp [State.start, Pc.busy]
  asked := by constructor <;> simp [State.start]
  conserved _ _ := by simp [State.start, State.held, Pc.left]

theorem Inv.step (s : State κ ι) (a : Action κ ι) (s' : State κ ι) (h : Inv cfg s)
    (ha : solicited s a = true) (hs : Fetch.step cfg s a = some s') :
    Inv cfg s' := by
  have hm := move_of_step hs
  refine ⟨h.booked.move hm, h.asked.move ha hm, fun hn => ?_⟩
  have hn' := (handed_isPrefix hm).sublist.nodup hn
  exact (h.conserved hn').move hn' h.asked hm

end Dstore.Fetch

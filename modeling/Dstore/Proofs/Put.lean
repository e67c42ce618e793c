import Dstore.Put
import Dstore.Lib.Lists

/-!
# What a put's reply accounts for

Every key the node takes is handed to the forward of each other owner (`Handed`) and, unless a chunk
fails, is on its way to the store or there (`Kept`). A forward that was waited for has each of its
keys among the holders or the failures (`Counted`).
-/

namespace Dstore.Put

variable {κ ι : Type}

/-- The stream has a record of a key that is the node's to keep. -/
def Accepted [DecidableEq ι] (n : Node κ ι) (stream : Stream κ) (k : κ) : Prop :=
  n.inWriteSet k = true ∧ ∃ r, some r ∈ stream ∧ r.key = some k

namespace Pc

/-- What the handler has still to read. -/
def rest : Pc κ ι → Stream κ
  | .receiving rest | .flushing _ rest | .sending _ _ rest | .waiting _ _ _ rest => rest
  | _ => []

/-- The owners that the handler has still to send the key to. -/
def due [DecidableEq κ] [DecidableEq ι] (n : Node κ ι) : Pc κ ι → κ → List ι
  | .flushing k' _, k => if k = k' then n.others k else []
  | .sending k' todo _, k | .waiting k' _ todo _, k => if k = k' then todo else []
  | _, _ => []

/-- The handler is past its last flush. -/
def Flushed : Pc κ ι → Prop
  | .closing | .storing | .collecting .. | .returned _ => True
  | _ => False

/-- The handler is past its own write. -/
def Drained : Pc κ ι → Prop
  | .collecting .. | .returned _ => True
  | _ => False

end Pc

/-! ## Forwards -/

namespace Forwarder

variable {f : Forwarder κ} {o : ι} {k : κ} {stream : Stream κ}

theorem giveUp_keys (f : Forwarder κ) (e : String) : (f.giveUp e).keys = f.keys := by
  unfold giveUp
  split <;> rfl

theorem giveUp_res (f : Forwarder κ) (e : String) : (f.giveUp e).res = f.res := by
  unfold giveUp
  split <;> rfl

/-- A forwarder keeps its keys, and gets its result from the owner. -/
theorem run_spec {f f' : Forwarder κ} {e : Event κ} (h : f.run e = some f') :
    f'.keys = f.keys ∧ (f'.res = f.res ∨ ∃ m, e = .answer (.ok m) ∧ f'.res = some m) := by
  cases e with
  | dial err =>
    simp only [run] at h
    split at h
    · cases err <;> (cases h; exact ⟨rfl, .inl rfl⟩)
    · cases h
  | request err =>
    simp only [run] at h
    split at h
    · cases err <;> (cases h; exact ⟨rfl, .inl rfl⟩)
    · cases h
  | answer m =>
    rcases m with e | m <;> simp only [run] at h <;> split at h <;> cases h
    · exact ⟨rfl, .inl rfl⟩
    · exact ⟨rfl, .inr ⟨m, rfl, rfl⟩⟩
  | record | cut | drained | timeout | cancelled =>
    simp only [run] at h
    split at h <;> cases h
    exact ⟨rfl, .inl rfl⟩

variable [DecidableEq κ]

theorem wait_confirmed (h : k ∈ f.wait.1) :
    k ∈ f.keys ∧ (∃ m, f.res = some m ∧ k ∈ m.holders) ∧ ∀ r, (k, r) ∉ f.wait.2 := by
  unfold wait at h ⊢
  split at h
  · simp at h
  · simp at h
  · next m _ hres =>
    simp only [List.mem_filter, Reply.confirmed, decide_eq_true_eq] at h
    refine ⟨h.1, ⟨m, hres, h.2⟩, fun r hr => ?_⟩
    simp only [List.mem_map, List.mem_filter, Prod.mk.injEq, Reply.confirmed] at hr
    obtain ⟨k', ⟨_, hk'⟩, rfl, _⟩ := hr
    simp [h.2] at hk'

theorem wait_total (h : k ∈ f.keys) (hk : k ∉ f.wait.1) :
    ∃ r, (k, r) ∈ f.wait.2 := by
  unfold wait at hk ⊢
  split
  · next e _ => exact ⟨e, by simpa using h⟩
  · exact ⟨"unreachable", by simpa using h⟩
  · next m herr hres =>
    simp only [herr, hres, List.mem_filter, not_and] at hk
    refine ⟨m.reason k, List.mem_map.2 ⟨k, List.mem_filter.2 ⟨List.mem_dedup.2 h, ?_⟩, rfl⟩⟩
    simpa using hk h

end Forwarder

/-! ## What the handler hands on -/

namespace State

section

variable [DecidableEq ι]

@[simp] theorem setForwarder_self (s : State κ ι) (o : ι) (f : Forwarder κ) :
    (s.setForwarder o f).forwarder o = f := by
  simp [setForwarder, forwarder]

theorem setForwarder_of_ne (s : State κ ι) {o o' : ι} (f : Forwarder κ) (h : o' ≠ o) :
    (s.setForwarder o f).forwarder o' = s.forwarder o' := by
  simp [setForwarder, forwarder, Function.update_of_ne h]

theorem mem_setForwarder_keys {s : State κ ι} {o o' : ι}
    (hf : k ∈ (s.forwarder o).keys → k ∈ f.keys) (h : k ∈ (s.forwarder o').keys) :
    k ∈ ((s.setForwarder o f).forwarder o').keys := by
  by_cases ho : o' = o
  · subst ho
    rw [setForwarder_self]
    exact hf h
  · rwa [setForwarder_of_ne s f ho]

end

end State

variable [DecidableEq κ] [DecidableEq ι]

/-! ## Steps -/

omit [DecidableEq κ] in
theorem mem_of_lookUp {d : Disk κ} : ∀ {keys : List κ} {p : List κ × List κ},
    lookUp d keys = .ok p → ∀ k ∈ keys, k ∈ p.1 ++ p.2
  | [], _, _ => by simp
  | k :: keys, p, h => by
    obtain ⟨has, _, h⟩ := Except.ok_of_bind h
    obtain ⟨q, hq, h⟩ := Except.ok_of_bind h
    have ih := mem_of_lookUp hq
    cases h
    intro x hx
    simp only [List.mem_append, List.mem_cons] at ih hx ⊢
    split <;> grind

omit [DecidableEq κ] in
theorem mem_of_storeBatch {d : Disk κ} {keys hits fresh : List κ}
    (h : storeBatch d keys = .ok (hits, fresh)) : ∀ k ∈ keys, k ∈ hits ++ fresh := by
  obtain ⟨⟨hits', fresh'⟩, hp, h⟩ := Except.ok_of_bind h
  have heq : (hits', fresh') = (hits, fresh) := by
    dsimp only at h
    generalize d.write = w, d.pin = q, fresh'.isEmpty = e, hits'.isEmpty = e' at h
    cases e <;> cases e' <;> cases w <;> cases q <;> cases h <;> rfl
  cases heq
  exact mem_of_lookUp hp

/-- What a step does to the state, by what the handler, the worker or a forward was at. -/
inductive Move (n : Node κ ι) (s : State κ ι) : State κ ι → Prop
  | quit (t : ℕ) (seen : List κ) {stream : Stream κ} (hpc : s.pc = .receiving stream) :
      Move n s { s with total := t, seen := seen, pc := .aborted }
  | pass (t : ℕ) {r : Rec κ} {rest : Stream κ} (hpc : s.pc = .receiving (some r :: rest))
      (hr : ∀ k, r.key = some k → n.inWriteSet k = true → k ∈ s.seen) :
      Move n s { s with total := t, pc := .receiving rest }
  | add (t b : ℕ) {r : Rec κ} {rest : Stream κ} {k : κ} {pc : Pc κ ι}
      (hpc : s.pc = .receiving (some r :: rest)) (hr : r.key = some k)
      (hpc' : pc = .flushing k rest ∨ pc = .sending k (n.others k) rest) :
      Move n s { s with
        total := t, seen := k :: s.seen, keys := s.keys ++ [k], chunk := s.chunk ++ [k],
        chunkBytes := b, pc := pc }
  | read (hpc : s.pc = .receiving []) : Move n s { s with pc := .finishing }
  | full {k : κ} {rest : Stream κ} {s' : State κ ι} (hpc : s.pc = .flushing k rest)
      (h : s.flushChunk (.sending k (n.others k) rest) = some s') : Move n s s'
  | last {s' : State κ ι} (hpc : s.pc = .finishing) (h : s.flushChunk .closing = some s') :
      Move n s s'
  | sent {k : κ} {rest : Stream κ} (hpc : s.pc = .sending k [] rest) :
      Move n s { s with pc := .receiving rest }
  | send {k : κ} {o : ι} {todo : List ι} {rest : Stream κ}
      (hpc : s.pc = .sending k (o :: todo) rest) : Move n s (s.send k o todo rest)
  | given {k : κ} {o : ι} {todo : List ι} {rest : Stream κ} (f : Forwarder κ)
      (hpc : s.pc = .waiting k o todo rest) (hkeys : f.keys = (s.forwarder o).keys)
      (hres : f.res = (s.forwarder o).res) :
      Move n s { s.setForwarder o f with pc := .sending k todo rest }
  | skip {k : κ} {o : ι} {todo : List ι} {rest : Stream κ} (hpc : s.pc = .waiting k o todo rest) :
      Move n s { s with pc := .sending k todo rest }
  | close (hpc : s.pc = .closing) :
      Move n s { s with
        closed := true
        fwd := fun o => (s.fwd o).map ({ · with closed := true })
        pc := .storing }
  | stored (hpc : s.pc = .storing) (hch : s.storeCh = []) (hb : s.batch = none) :
      Move n s { s with
        pc := .collecting (fun k => if k ∈ s.keys then [n.self] else []) [] s.peers }
  | take {c : List κ} {cs : List (List κ)} (hb : s.batch = none) (hch : s.storeCh = c :: cs) :
      Move n s { s with storeCh := cs, batch := if s.err.isSome then none else some c }
  | kept {c hits fresh : List κ} (hb : s.batch = some c) (hc : ∀ k ∈ c, k ∈ hits ++ fresh) :
      Move n s { s with batch := none, stored := s.stored ++ hits ++ fresh }
  | broke {c : List κ} (e : String) (hb : s.batch = some c) :
      Move n s { s with batch := none, err := some (s.err.getD e), broken := true }
  | forward {o : ι} {f f' : Forwarder κ} (rs : List (ι × Reply κ)) (hf : s.fwd o = some f)
      (hkeys : f'.keys = f.keys) (hrs : ∀ x ∈ s.replies, x ∈ rs)
      (hres : f'.res = f.res ∨ ∃ m, f'.res = some m ∧ (o, m) ∈ rs) :
      Move n s { s.setForwarder o f' with replies := rs }
  | collect {o : ι} {f : Forwarder κ} {holders : Holders κ ι} {failed : Failures κ ι}
      {todo : List ι} (hpc : s.pc = .collecting holders failed todo) (hf : s.fwd o = some f)
      (ho : o ∈ todo) : Move n s (s.collect o f holders failed todo)
  | answer {holders : Holders κ ι} {failed : Failures κ ι}
      (hpc : s.pc = .collecting holders failed []) :
      Move n s { s with
        pc := .returned (match s.err with | some e => .error e | none => .ok (holders, failed)) }


variable {n : Node κ ι} {s s' : State κ ι}

/-- Reading a record is one of the moves. -/
theorem move_of_receive (hpc : s.pc = .receiving stream) :
    Move n s (s.receive n stream) := by
  match stream, hpc with
  | [], hpc => exact .read hpc
  | none :: _, hpc => exact .quit s.total s.seen hpc
  | some r :: rest, hpc =>
    simp only [State.receive]
    split
    · exact .quit s.total s.seen hpc
    · split
      · next hr => exact .pass (s.total + r.size) hpc (by simp [hr])
      · next k hr =>
        split
        · next h =>
          refine .pass (s.total + r.size) hpc fun k' hk' hw => ?_
          rw [hr, Option.some.injEq] at hk'
          subst hk'
          simpa [hw] using h
        · simp only [State.add]
          split
          · exact .quit (s.total + r.size) (k :: s.seen) hpc
          · refine .add (s.total + r.size) (s.chunkBytes + r.size) hpc hr ?_
            split
            · exact .inl rfl
            · exact .inr rfl

theorem move_of_handle (h : s.handle n = some s') :
    Move n s s' := by
  unfold State.handle at h
  split at h
  · next hpc => cases h; exact move_of_receive hpc
  · next hpc => exact .full hpc h
  · next hpc => cases h; exact .sent hpc
  · next hpc => cases h; exact .send hpc
  · cases h
  · next hpc => exact .last hpc h
  · next hpc => cases h; exact .close hpc
  · next hpc =>
    split at h
    · next hd => cases h; exact .stored hpc hd.1 hd.2
    · cases h
  · next hpc => cases h; exact .answer hpc
  all_goals cases h

/-- A step is one of the moves. -/
theorem move_of_step {a : Action κ ι}
    (h : step n s a = some s') : Move n s s' := by
  cases a with
  | handler => exact move_of_handle h
  | push =>
    simp only [step, State.push] at h
    split at h
    · next hpc =>
      split at h
      · cases h
        exact .given _ hpc rfl rfl
      · cases h
    · cases h
  | skip =>
    simp only [step, State.skip] at h
    split at h
    · next hpc =>
      split at h
      · cases h
        exact .skip hpc
      · cases h
    · cases h
  | timeout =>
    simp only [step, State.timeout] at h
    split at h
    · next hpc =>
      cases h
      exact .given _ hpc (Forwarder.giveUp_keys _ _) (Forwarder.giveUp_res _ _)
    · cases h
  | take =>
    simp only [step, State.take] at h
    split at h
    · next hb hch => cases h; exact .take hb hch
    · cases h
  | store d =>
    simp only [step, State.store] at h
    split at h
    · cases h
    · next hb =>
      split at h
      · next hs => cases h; exact .kept hb (mem_of_storeBatch hs)
      · cases h; exact .broke _ hb
  | forward o e =>
    simp only [step, State.forward] at h
    split at h
    · cases h
    · next f hf =>
      split at h
      · cases h
      · next f' hrun =>
        cases h
        obtain ⟨hkeys, hres⟩ := Forwarder.run_spec hrun
        refine .forward _ hf hkeys ?_ ?_
        · intro x hx
          split
          · exact List.mem_cons_of_mem _ hx
          · exact hx
        · refine hres.imp_right ?_
          rintro ⟨m, rfl, hm⟩
          exact ⟨m, hm, by simp⟩
  | collect o =>
    simp only [step] at h
    split at h
    · next hpc hf =>
      split at h
      · next ho => cases h; exact .collect hpc hf ho.1
      · cases h
    · cases h

/-! ## What the handler has read -/

/-- No key of the stream is forgotten, unless the handler aborts. -/
structure Heard (n : Node κ ι) (stream : Stream κ) (s : State κ ι) : Prop where
  read : ∀ k, Accepted n stream k → k ∈ s.keys ∨ Accepted n s.pc.rest k ∨ s.pc = .aborted
  seen : ∀ k ∈ s.seen, k ∈ s.keys ∨ s.pc = .aborted

omit [DecidableEq κ] [DecidableEq ι] in
theorem flushChunk_eq {next : Pc κ ι} (h : s.flushChunk next = some s') :
    s.chunk = [] ∧ s' = { s with pc := next } ∨
      s.storeCh = [] ∧
        s' = { s with storeCh := [s.chunk], chunk := [], chunkBytes := 0, pc := next } := by
  unfold State.flushChunk at h
  split at h
  · next hc => cases h; exact .inl ⟨hc, rfl⟩
  · split at h
    · next hc => cases h; exact .inr ⟨hc, rfl⟩
    · cases h

omit [DecidableEq κ] in
theorem Heard.frame (h : Heard n stream s)
    (hkeys : s'.keys = s.keys) (hseen : s'.seen = s.seen) (hrest : s'.pc.rest = s.pc.rest)
    (hpc : s.pc ≠ .aborted) : Heard n stream s' where
  read k hk := by
    rw [hkeys, hrest]
    exact (h.read k hk).imp_right fun h => .inl (h.resolve_right hpc)
  seen k hk := by
    rw [hkeys]
    exact .inl ((h.seen k (hseen ▸ hk)).resolve_right hpc)

/-- No move forgets a key. -/
theorem Heard.move (h : Heard n stream s) (hm : Move n s s') :
    Heard n stream s' := by
  cases hm with
  | quit => exact ⟨fun _ _ => .inr (.inr rfl), fun _ _ => .inr rfl⟩
  | @pass t r rest hpc hr =>
    obtain ⟨read, seen⟩ := h
    simp only [hpc, reduceCtorEq, or_false, Pc.rest] at read seen
    refine ⟨fun k hk => ?_, fun k hk => .inl (seen k hk)⟩
    rcases read k hk with h | ⟨hw, x, hx, hxk⟩
    · exact .inl h
    · rcases List.mem_cons.1 hx with h | hx
      · cases h
        exact .inl (seen k (hr k hxk hw))
      · exact .inr (.inl ⟨hw, x, hx, hxk⟩)
  | @add t b r rest k pc hpc hr hpc' =>
    obtain ⟨read, seen⟩ := h
    simp only [hpc, reduceCtorEq, or_false, Pc.rest] at read seen
    have hrest : pc.rest = rest := by rcases hpc' with rfl | rfl <;> rfl
    refine ⟨fun k' hk' => ?_, fun k' hk' => ?_⟩
    · rcases read k' hk' with h | ⟨hw, x, hx, hxk⟩
      · exact .inl (List.mem_append_left _ h)
      · rcases List.mem_cons.1 hx with h | hx
        · cases h
          rw [hr, Option.some.injEq] at hxk
          exact .inl (by simp [hxk])
        · exact .inr (.inl ⟨hw, x, by rwa [hrest], hxk⟩)
    · rcases List.mem_cons.1 hk' with rfl | h
      · exact .inl (by simp)
      · exact .inl (List.mem_append_left _ (seen k' h))
  | full hpc hf =>
    rcases flushChunk_eq hf with ⟨_, rfl⟩ | ⟨_, rfl⟩ <;>
      exact h.frame rfl rfl (by rw [hpc]; rfl) (by simp [hpc])
  | last hpc hf =>
    rcases flushChunk_eq hf with ⟨_, rfl⟩ | ⟨_, rfl⟩ <;>
      exact h.frame rfl rfl (by rw [hpc]; rfl) (by simp [hpc])
  | send hpc =>
    refine h.frame rfl rfl ?_ (by simp [hpc])
    rw [hpc]
    simp only [State.send]
    split <;> rfl
  | read hpc => exact h.frame rfl rfl (by rw [hpc]; rfl) (by simp [hpc])
  | sent hpc => exact h.frame rfl rfl (by rw [hpc]; rfl) (by simp [hpc])
  | given f hpc => exact h.frame rfl rfl (by rw [hpc]; rfl) (by simp [hpc])
  | skip hpc => exact h.frame rfl rfl (by rw [hpc]; rfl) (by simp [hpc])
  | close hpc => exact h.frame rfl rfl (by rw [hpc]; rfl) (by simp [hpc])
  | stored hpc => exact h.frame rfl rfl (by rw [hpc]; rfl) (by simp [hpc])
  | collect hpc => exact h.frame rfl rfl (by rw [hpc]; rfl) (by simp [hpc])
  | answer hpc => exact h.frame rfl rfl (by rw [hpc]; rfl) (by simp [hpc])
  | take | kept | broke | forward => exact ⟨h.read, h.seen⟩

/-! ## What the worker is given -/

/-- A key taken is in the store or on its way there, unless a chunk failed. -/
structure Kept (s : State κ ι) : Prop where
  kept : s.err = none → ∀ k ∈ s.keys,
    k ∈ s.stored ∨ k ∈ s.chunk ∨ (∃ c ∈ s.storeCh, k ∈ c) ∨ ∃ c, s.batch = some c ∧ k ∈ c
  broken : s.broken = true → s.err ≠ none
  flushed : s.pc.Flushed → s.chunk = []
  drained : s.pc.Drained → s.storeCh = [] ∧ s.batch = none
  clean : ∀ r, s.pc = .returned (.ok r) → s.err = none

omit [DecidableEq κ] [DecidableEq ι] in
theorem Kept.frame (h : Kept s) (hkeys : s'.keys = s.keys)
    (hworker : (s'.stored, s'.chunk, s'.storeCh, s'.batch, s'.err, s'.broken) =
      (s.stored, s.chunk, s.storeCh, s.batch, s.err, s.broken))
    (hf : s'.pc.Flushed → s.pc.Flushed) (hd : s'.pc.Drained → s.pc.Drained)
    (hr : ∀ r, s'.pc ≠ .returned r) : Kept s' := by
  simp only [Prod.mk.injEq] at hworker
  obtain ⟨h1, h2, h3, h4, h5, h6⟩ := hworker
  constructor
  · rw [hkeys, h1, h2, h3, h4, h5]
    exact h.kept
  · rw [h5, h6]
    exact h.broken
  · rw [h2]
    exact fun h' => h.flushed (hf h')
  · rw [h3, h4]
    exact fun h' => h.drained (hd h')
  · exact fun r h' => absurd h' (hr _)

omit [DecidableEq κ] [DecidableEq ι] in
theorem Kept.flush (h : Kept s) {next : Pc κ ι}
    (hf : s.flushChunk next = some s') (hd : ¬ next.Drained) : Kept s' := by
  have hr : ∀ r, next = .returned (.ok r) → s.err = none := by
    rintro r rfl
    exact absurd trivial hd
  rcases flushChunk_eq hf with ⟨hc, rfl⟩ | ⟨hch, rfl⟩
  · exact ⟨h.kept, h.broken, fun _ => hc, fun h' => absurd h' hd, hr⟩
  · refine ⟨fun he k hk => ?_, h.broken, fun _ => rfl, fun h' => absurd h' hd, hr⟩
    rcases h.kept he k hk with h | h | ⟨c, hc, _⟩ | h
    · exact .inl h
    · exact .inr (.inr (.inl ⟨s.chunk, by simp, h⟩))
    · simp [hch] at hc
    · exact .inr (.inr (.inr h))

/-- What is to be written stays so until it is written. -/
theorem Kept.move (h : Kept s) (hm : Move n s s') :
    Kept s' := by
  cases hm with
  | quit | sent | read | pass | skip | given =>
    exact h.frame rfl rfl False.elim False.elim (fun _ h => by cases h)
  | send =>
    refine h.frame rfl rfl ?_ ?_ fun r => ?_ <;> simp only [State.send] <;> split <;>
      simp [Pc.Flushed, Pc.Drained]
  | @add t b r rest k pc hpc hr hpc' =>
    have hf : ¬ pc.Flushed ∧ ¬ pc.Drained ∧ ∀ r, pc ≠ .returned r := by
      rcases hpc' with rfl | rfl <;> simp [Pc.Flushed, Pc.Drained]
    refine ⟨fun he k' hk' => ?_, h.broken, fun h => absurd h hf.1, fun h => absurd h hf.2.1,
      fun r h => absurd h (hf.2.2 _)⟩
    rcases List.mem_append.1 hk' with hk' | hk'
    · rcases h.kept he k' hk' with h | h | h
      · exact .inl h
      · exact .inr (.inl (List.mem_append_left _ h))
      · exact .inr (.inr h)
    · exact .inr (.inl (List.mem_append_right _ hk'))
  | full hpc hf => exact h.flush hf id
  | last hpc hf => exact h.flush hf id
  | close hpc => exact h.frame rfl rfl (by simp [hpc, Pc.Flushed]) False.elim (by simp)
  | collect hpc =>
    exact h.frame rfl rfl (by simp [hpc, Pc.Flushed]) (by simp [hpc, Pc.Drained])
      (by simp [State.collect])
  | stored hpc hch hb =>
    exact ⟨h.kept, h.broken, fun _ => h.flushed (by simp [hpc, Pc.Flushed]), fun _ => ⟨hch, hb⟩,
      fun r h => by cases h⟩
  | answer hpc =>
    refine ⟨h.kept, h.broken, fun _ => h.flushed (by simp [hpc, Pc.Flushed]),
      fun _ => h.drained (by simp [hpc, Pc.Drained]), fun r hr => ?_⟩
    dsimp only at hr ⊢
    rcases he : s.err with _ | e
    · rfl
    · simp [he] at hr
  | @take c cs hb hch =>
    refine ⟨fun he k hk => ?_, h.broken, h.flushed, fun hd => ?_, h.clean⟩
    · have he' : s.err = none := he
      rcases h.kept he k hk with h | h | ⟨c', hc', hk'⟩ | ⟨c', hc', _⟩
      · exact .inl h
      · exact .inr (.inl h)
      · rw [hch] at hc'
        rcases List.mem_cons.1 hc' with rfl | hc'
        · exact .inr (.inr (.inr ⟨c', by simp [he'], hk'⟩))
        · exact .inr (.inr (.inl ⟨c', hc', hk'⟩))
      · rw [hb] at hc'
        cases hc'
    · have := (h.drained hd).1
      rw [hch] at this
      cases this
  | @kept c hits fresh hb hc =>
    refine ⟨fun he k hk => ?_, h.broken, h.flushed, fun hd => ⟨(h.drained hd).1, rfl⟩, h.clean⟩
    rcases h.kept he k hk with h | h | h | ⟨c', hc', hk'⟩
    · exact .inl (by simp [h])
    · exact .inr (.inl h)
    · exact .inr (.inr (.inl h))
    · rw [hb, Option.some.injEq] at hc'
      subst hc'
      rw [List.append_assoc]
      exact .inl (List.mem_append_right _ (hc k hk'))
  | broke e hb =>
    refine ⟨fun he => by simp at he, fun _ => by simp, h.flushed,
      fun hd => ⟨(h.drained hd).1, rfl⟩, fun r hr => ?_⟩
    -- The worker has nothing left to do once the handler has answered.
    have hpc : s.pc = .returned (.ok r) := hr
    have := (h.drained (by rw [hpc]; trivial)).2
    rw [hb] at this
    cases this
  | forward => exact ⟨h.kept, h.broken, h.flushed, h.drained, h.clean⟩

/-! ## What the forwards are handed -/

/-- Each key taken is handed to every other owner, those the handler is still to turn to apart. -/
structure Handed (n : Node κ ι) (s : State κ ι) : Prop where
  handed : ∀ k ∈ s.keys, ∀ o ∈ n.others k, o ∈ s.pc.due n k ∨ k ∈ (s.forwarder o).keys
  due : ∀ k, ∀ o ∈ s.pc.due n k, o ∈ n.others k
  peers : ∀ o, o ∈ s.peers ↔ s.fwd o ≠ none
  nodup : s.peers.Nodup
  notSelf : n.self ∉ s.peers
  waiting : ∀ k o todo rest, s.pc = .waiting k o todo rest → o ∈ s.peers

theorem Handed.frame (h : Handed n s)
    (hkeys : s'.keys = s.keys) (hdue : ∀ k, s'.pc.due n k = s.pc.due n k)
    (hfwd : ∀ o, (s'.forwarder o).keys = (s.forwarder o).keys)
    (hsome : ∀ o, s'.fwd o ≠ none ↔ s.fwd o ≠ none) (hpeers : s'.peers = s.peers)
    (hw : ∀ k o todo rest, s'.pc = .waiting k o todo rest → s'.pc = s.pc) : Handed n s' where
  handed := by simpa only [hkeys, hdue, hfwd] using h.handed
  due := by simpa only [hdue] using h.due
  peers := by simpa only [hsome, hpeers] using h.peers
  nodup := by simpa only [hpeers] using h.nodup
  notSelf := by simpa only [hpeers] using h.notSelf
  waiting k o todo rest hpc := by
    rw [hpeers]
    exact h.waiting k o todo rest (hw k o todo rest hpc ▸ hpc)

omit [DecidableEq κ] in
theorem mem_others :
    o ∈ n.others k ↔ o ∈ n.writeSet k ∧ o ≠ n.self := by
  simp [Node.others]

theorem Handed.set (h : Handed n s) (ho : o ∈ s.peers)
    (hf : f.keys = (s.forwarder o).keys) : Handed n (s.setForwarder o f) := by
  refine h.frame rfl (fun _ => rfl) (fun o' => ?_) (fun o' => ?_) (if_pos ho) fun _ _ _ _ _ => rfl
  · by_cases ho' : o' = o
    · rw [ho', State.setForwarder_self, hf]
    · rw [State.setForwarder_of_ne s f ho']
  · by_cases ho' : o' = o
    · subst ho'
      simpa [State.setForwarder] using (h.peers o').1 ho
    · simp [State.setForwarder, Function.update_of_ne ho']

/-- A key is handed to one owner after the other. -/
theorem Handed.send (h : Handed n s) {todo : List ι}
    {rest : Stream κ} (hpc : s.pc = .sending k (o :: todo) rest) :
    Handed n (s.send k o todo rest) := by
  have hdue : ∀ k', (s.send k o todo rest).pc.due n k' = if k' = k then todo else [] := by
    intro k'
    simp only [State.send]
    split <;> rfl
  have hbefore : ∀ k', s.pc.due n k' = if k' = k then o :: todo else [] := by simp [hpc, Pc.due]
  have ho : o ∈ n.others k := h.due k o (by simp [hbefore])
  have hmem : ∀ o', o' ∈ (s.send k o todo rest).peers ↔ o' = o ∨ o' ∈ s.peers := by
    intro o'
    simp only [State.send, State.setForwarder]
    split
    · next h =>
      constructor
      · exact .inr
      · rintro (rfl | h')
        · exact h
        · exact h'
    · rw [List.mem_append, List.mem_singleton, or_comm]
  have hfwd : ∀ k' o', k' ∈ (s.forwarder o').keys →
      k' ∈ ((s.send k o todo rest).forwarder o').keys :=
    fun _ _ => State.mem_setForwarder_keys (List.mem_append_left _)
  have hself : k ∈ ((s.send k o todo rest).forwarder o).keys := by
    show k ∈ ((s.setForwarder o _).forwarder o).keys
    rw [State.setForwarder_self]
    exact List.mem_append_right _ (List.mem_singleton_self k)
  constructor
  · intro k' hk' o' ho'
    rw [hdue]
    rcases h.handed k' hk' o' ho' with hd | hd
    · rw [hbefore] at hd
      split at hd
      · next hk =>
        subst hk
        rcases List.mem_cons.1 hd with rfl | hd
        · exact .inr hself
        · exact .inl (by simpa using hd)
      · simp at hd
    · exact .inr (hfwd k' o' hd)
  · intro k' o' ho'
    rw [hdue] at ho'
    refine h.due k' o' ?_
    rw [hbefore]
    split at ho'
    · next hk => simp [hk, ho']
    · simp at ho'
  · intro o'
    rw [hmem]
    by_cases ho' : o' = o
    · simp [ho', State.send, State.setForwarder]
    · simp [ho', State.send, State.setForwarder, h.peers]
  · simp only [State.send, State.setForwarder]
    split
    · exact h.nodup
    · next hn =>
      refine List.nodup_append.2 ⟨h.nodup, List.nodup_singleton o, fun a ha b hb => ?_⟩
      rw [List.mem_singleton.1 hb]
      rintro rfl
      exact hn ha
  · rw [hmem]
    rintro (hs | hs)
    · exact (mem_others.1 ho).2 hs.symm
    · exact h.notSelf hs
  · intro k' o' todo' rest' hw
    rw [hmem]
    simp only [State.send] at hw
    split at hw
    · cases hw
    · cases hw
      exact .inl rfl

/-- Every key has been handed to its owners, or is due. -/
theorem Handed.move (h : Handed n s) (hm : Move n s s') :
    Handed n s' := by
  -- Where the handler is not at a key's forwards, nothing is due.
  have settled : ∀ {s'' : State κ ι}, (∀ k, s''.pc.due n k = []) → (∀ k, s.pc.due n k = []) →
      s''.keys = s.keys → s''.fwd = s.fwd → s''.peers = s.peers →
      (∀ k o todo rest, s''.pc ≠ .waiting k o todo rest) → Handed n s'' := by
    intro s'' hd hd' hkeys hfwd hpeers hw
    refine h.frame hkeys (by simp [hd, hd']) (fun o => ?_) (by simp [hfwd]) hpeers
      fun k o todo rest h' => absurd h' (hw k o todo rest)
    unfold State.forwarder
    rw [hfwd]
  cases hm with
  | quit _ _ hpc => exact settled (by simp [Pc.due]) (by simp [hpc, Pc.due]) rfl rfl rfl (by simp)
  | pass _ hpc => exact settled (by simp [Pc.due]) (by simp [hpc, Pc.due]) rfl rfl rfl (by simp)
  | read hpc => exact settled (by simp [Pc.due]) (by simp [hpc, Pc.due]) rfl rfl rfl (by simp)
  | stored hpc => exact settled (by simp [Pc.due]) (by simp [hpc, Pc.due]) rfl rfl rfl (by simp)
  | answer hpc => exact settled (by simp [Pc.due]) (by simp [hpc, Pc.due]) rfl rfl rfl (by simp)
  | collect hpc =>
    exact settled (by simp [State.collect, Pc.due]) (by simp [hpc, Pc.due]) rfl rfl rfl
      (by simp [State.collect])
  | sent hpc => exact settled (by simp [Pc.due]) (by simp [hpc, Pc.due]) rfl rfl rfl (by simp)
  | close hpc =>
    refine h.frame rfl (by simp [hpc, Pc.due]) (fun o => ?_) (by simp) rfl (by simp)
    rcases hf : s.fwd o with _ | f <;> simp [State.forwarder, hf]
  | skip hpc =>
    exact h.frame rfl (by simp [hpc, Pc.due]) (fun _ => rfl) (fun _ => .rfl) rfl (by simp)
  | @add t b r rest k pc hpc hr hpc' =>
    have hdue : ∀ k', pc.due n k' = if k' = k then n.others k' else [] := by
      rcases hpc' with rfl | rfl
      · exact fun _ => rfl
      · intro k'
        simp only [Pc.due]
        split
        · next hk => rw [hk]
        · rfl
    refine ⟨fun k' hk' o ho => ?_, fun k' o ho => ?_, h.peers, h.nodup, h.notSelf, ?_⟩
    · rw [hdue]
      split
      · exact .inl ho
      · next hne =>
        have hk : k' ∈ s.keys := by simpa [hne] using hk'
        exact .inr ((h.handed k' hk o ho).resolve_left (by simp [hpc, Pc.due]))
    · rw [hdue] at ho
      split at ho
      · exact ho
      · simp at ho
    · rcases hpc' with rfl | rfl <;> simp
  | @full k rest _ hpc hf =>
    have hdue : ∀ k', (Pc.sending k (n.others k) rest).due n k' = s.pc.due n k' := by
      intro k'
      simp only [hpc, Pc.due]
      split
      · next hk => rw [hk]
      · rfl
    rcases flushChunk_eq hf with ⟨_, rfl⟩ | ⟨_, rfl⟩ <;>
      exact h.frame rfl hdue (fun _ => rfl) (fun _ => .rfl) rfl (by simp)
  | last hpc hf =>
    rcases flushChunk_eq hf with ⟨_, rfl⟩ | ⟨_, rfl⟩ <;>
      exact settled (by simp [Pc.due]) (by simp [hpc, Pc.due]) rfl rfl rfl (by simp)
  | send hpc => exact h.send hpc
  | given f hpc hkeys =>
    have hset := h.set (h.waiting _ _ _ _ hpc) hkeys
    exact hset.frame rfl (by simp [State.setForwarder, hpc, Pc.due]) (fun _ => rfl)
      (fun _ => .rfl) rfl (by simp)
  | take | kept | broke => exact ⟨h.handed, h.due, h.peers, h.nodup, h.notSelf, h.waiting⟩
  | @forward o f f' rs hf hkeys =>
    have hset := h.set (f := f') ((h.peers o).2 (by simp [hf]))
      (by rw [hkeys]; simp [State.forwarder, hf])
    exact ⟨hset.handed, hset.due, hset.peers, hset.nodup, hset.notSelf, hset.waiting⟩

/-! ## What the reply is put together from -/

namespace Pc

/-- What the handler has counted, and of whom it still waits. -/
def account : Pc κ ι → Option (Holders κ ι × Failures κ ι × List ι)
  | .collecting holders failed todo => some (holders, failed, todo)
  | .returned (.ok (holders, failed)) => some (holders, failed, [])
  | _ => none

end Pc

/-- The holders and failures account for the forwards that are not to be waited for any more. -/
structure Accounts (n : Node κ ι) (s : State κ ι) (holders : Holders κ ι) (failed : Failures κ ι)
    (todo : List ι) : Prop where
  nodup : todo.Nodup
  self : ∀ k ∈ s.keys, n.self ∈ holders k
  listed : ∀ k, ∀ o ∈ holders k,
    o = n.self ∨ o ∉ todo ∧ ∃ m, (o, m) ∈ s.replies ∧ k ∈ m.holders
  queued : ∀ k o r, (k, o, r) ∈ failed → o ∉ todo ∧ (o, k) ∈ s.queue
  one : ∀ o ∈ s.peers, o ∉ todo → ∀ k ∈ (s.forwarder o).keys,
    o ∈ holders k ∧ (∀ r, (k, o, r) ∉ failed) ∨ o ∉ holders k ∧ ∃ r, (k, o, r) ∈ failed

/-- Holders and failures are what the owners have answered. -/
structure Counted (n : Node κ ι) (s : State κ ι) : Prop where
  replied : ∀ o m, (s.forwarder o).res = some m → (o, m) ∈ s.replies
  accounts : ∀ holders failed todo, s.pc.account = some (holders, failed, todo) →
    Accounts n s holders failed todo

omit [DecidableEq κ] [DecidableEq ι] in
theorem Accounts.frame {holders : Holders κ ι}
    {failed : Failures κ ι} {todo : List ι} (h : Accounts n s holders failed todo)
    (hkeys : s'.keys = s.keys) (hreplies : ∀ x ∈ s.replies, x ∈ s'.replies)
    (hqueue : s'.queue = s.queue) (hpeers : s'.peers = s.peers)
    (hfwd : ∀ o, (s'.forwarder o).keys = (s.forwarder o).keys) :
    Accounts n s' holders failed todo where
  nodup := h.nodup
  self := by simpa only [hkeys] using h.self
  listed k o ho :=
    (h.listed k o ho).imp_right fun ⟨ht, m, hm, hk⟩ => ⟨ht, m, hreplies _ hm, hk⟩
  queued := by simpa only [hqueue] using h.queued
  one := by simpa only [hpeers, hfwd] using h.one

/-- One owner's answer is counted. -/
theorem Accounts.collect {holders : Holders κ ι}
    {failed : Failures κ ι} {todo : List ι} (h : Accounts n s holders failed todo) (hs : Handed n s)
    (hreplied : ∀ o m, (s.forwarder o).res = some m → (o, m) ∈ s.replies) (hf : s.fwd o = some f)
    (ho : o ∈ todo) :
    Accounts n (s.collect o f holders failed todo)
      (fun k => if k ∈ f.wait.1 then holders k ++ [o] else holders k)
      (failed ++ f.wait.2.map fun e => (e.1, o, e.2)) (todo.erase o) := by
  have hff : s.forwarder o = f := by simp [State.forwarder, hf]
  have hself : o ≠ n.self := fun heq => hs.notSelf (heq ▸ (hs.peers o).2 (by simp [hf]))
  have hgone : o ∉ todo.erase o := h.nodup.not_mem_erase
  have hmem : ∀ k o', o' ∈ (if k ∈ f.wait.1 then holders k ++ [o] else holders k) ↔
      o' ∈ holders k ∨ o' = o ∧ k ∈ f.wait.1 := by
    intro k o'
    split <;> simp_all
  have hfail : ∀ k o' r, (k, o', r) ∈ failed ++ f.wait.2.map (fun e => (e.1, o, e.2)) ↔
      (k, o', r) ∈ failed ∨ o' = o ∧ (k, r) ∈ f.wait.2 := by
    intro k o' r
    simp only [List.mem_append, List.mem_map, Prod.mk.injEq, Prod.exists]
    constructor
    · rintro (h | ⟨k', r', he, rfl, rfl, rfl⟩)
      · exact .inl h
      · exact .inr ⟨rfl, he⟩
    · rintro (h | ⟨rfl, he⟩)
      · exact .inl h
      · exact .inr ⟨k, r, he, rfl, rfl, rfl⟩
  constructor
  · exact h.nodup.erase o
  · intro k hk
    exact (hmem k _).2 (.inl (h.self k hk))
  · intro k o' ho'
    rcases (hmem k o').1 ho' with hl | ⟨rfl, hk⟩
    · exact (h.listed k o' hl).imp_right
        fun ⟨ht, hm⟩ => ⟨fun h' => ht (List.mem_of_mem_erase h'), hm⟩
    · obtain ⟨_, ⟨m, hm, hkm⟩, _⟩ := Forwarder.wait_confirmed hk
      exact .inr ⟨hgone, m, hreplied o' m (by rw [hff, hm]), hkm⟩
  · intro k o' r hr
    rcases (hfail k o' r).1 hr with hl | ⟨rfl, he⟩
    · obtain ⟨ht, hq⟩ := h.queued k o' r hl
      exact ⟨fun h' => ht (List.mem_of_mem_erase h'), List.mem_append_left _ hq⟩
    · exact ⟨hgone, List.mem_append_right _ (List.mem_map.2 ⟨(k, r), he, rfl⟩)⟩
  · intro o' ho' ht k hk
    simp only [hmem, hfail]
    by_cases heq : o' = o
    · subst heq
      have hk : k ∈ f.keys := hff ▸ hk
      have hnl : o' ∉ holders k := fun hl =>
        ((h.listed k o' hl).resolve_left hself).1 ho
      have hnf : ∀ r, (k, o', r) ∉ failed := fun r hr => (h.queued k o' r hr).1 ho
      by_cases hw : k ∈ f.wait.1
      · have := (Forwarder.wait_confirmed hw).2.2
        exact .inl ⟨.inr ⟨rfl, hw⟩, fun r => by simp [hnf, this]⟩
      · obtain ⟨r, hr⟩ := Forwarder.wait_total hk hw
        exact .inr ⟨by simp [hnl, hw], r, .inr ⟨rfl, hr⟩⟩
    · have ht' : o' ∉ todo := fun h' => ht ((List.mem_erase_of_ne heq).2 h')
      simpa [heq] using h.one o' ho' ht' k hk

omit [DecidableEq κ] [DecidableEq ι] in
theorem Counted.before (h : Counted n s)
    (hres : ∀ o, (s'.forwarder o).res = (s.forwarder o).res) (hreplies : s'.replies = s.replies)
    (hpc : s'.pc.account = none) : Counted n s' where
  replied o m hm := hreplies ▸ h.replied o m (hres o ▸ hm)
  accounts _ _ _ h' := by simp [hpc] at h'

omit [DecidableEq κ] in
theorem setForwarder_res (hf : f.res = (s.forwarder o).res) (o' : ι) :
    ((s.setForwarder o f).forwarder o').res = (s.forwarder o').res := by
  by_cases ho : o' = o
  · rw [ho, State.setForwarder_self, hf]
  · rw [State.setForwarder_of_ne s f ho]

/-- Every move counts what was answered. -/
theorem Counted.move (h : Counted n s) (hs : Handed n s)
    (hm : Move n s s') : Counted n s' := by
  cases hm with
  | quit | pass | read | sent | skip => exact h.before (fun _ => rfl) rfl rfl
  | add _ _ _ _ hpc' =>
    refine h.before (fun _ => rfl) rfl ?_
    rcases hpc' with rfl | rfl <;> rfl
  | full _ hf | last _ hf =>
    rcases flushChunk_eq hf with ⟨_, rfl⟩ | ⟨_, rfl⟩ <;> exact h.before (fun _ => rfl) rfl rfl
  | send hpc =>
    refine h.before (setForwarder_res rfl) rfl ?_
    simp only [State.send]
    split <;> rfl
  | given f hpc hkeys hres => exact h.before (setForwarder_res hres) rfl rfl
  | close hpc =>
    refine h.before (fun o => ?_) rfl rfl
    rcases hf : s.fwd o with _ | f <;> simp [State.forwarder, hf]
  | stored hpc =>
    refine ⟨h.replied, fun holders failed todo heq => ?_⟩
    simp only [Pc.account, Option.some.injEq, Prod.mk.injEq] at heq
    obtain ⟨rfl, rfl, rfl⟩ := heq
    constructor
    · exact hs.nodup
    · intro k hk
      simp only at hk
      simp [hk]
    · intro k o ho
      split at ho
      · exact .inl (by simpa using ho)
      · simp at ho
    · simp
    · exact fun o ho ho' => absurd ho ho'
  | take | kept | broke =>
    exact ⟨h.replied, fun holders failed todo heq =>
      (h.accounts holders failed todo heq).frame rfl (fun _ => id) rfl rfl fun _ => rfl⟩
  | @forward o f f' rs hf hkeys hrs hres =>
    have hff : s.forwarder o = f := by simp [State.forwarder, hf]
    have ho : o ∈ s.peers := (hs.peers o).2 (by simp [hf])
    refine ⟨fun o' m hm => ?_, fun holders failed todo heq => ?_⟩
    · replace hm : ((s.setForwarder o f').forwarder o').res = some m := hm
      by_cases ho' : o' = o
      · subst ho'
        rw [State.setForwarder_self] at hm
        rcases hres with hres | ⟨m', hm', hrs'⟩
        · exact hrs _ (h.replied o' m (by rw [hff, ← hres, hm]))
        · rw [hm', Option.some.injEq] at hm
          exact hm ▸ hrs'
      · rw [State.setForwarder_of_ne s f' ho'] at hm
        exact hrs _ (h.replied o' m hm)
    · refine (h.accounts holders failed todo heq).frame rfl hrs rfl (if_pos ho) fun o' => ?_
      show ((s.setForwarder o f').forwarder o').keys = _
      by_cases ho' : o' = o
      · rw [ho', State.setForwarder_self, hkeys, hff]
      · rw [State.setForwarder_of_ne s f' ho']
  | collect hpc hf ho =>
    refine ⟨h.replied, fun holders failed todo heq => ?_⟩
    simp only [State.collect, Pc.account, Option.some.injEq, Prod.mk.injEq] at heq
    obtain ⟨rfl, rfl, rfl⟩ := heq
    exact (h.accounts _ _ _ (by rw [hpc]; rfl)).collect hs h.replied hf ho
  | answer hpc =>
    refine ⟨h.replied, fun holders failed todo heq => ?_⟩
    have hacc := h.accounts _ _ _ (by rw [hpc]; rfl)
    rcases he : s.err with _ | e
    · simp only [he, Pc.account, Option.some.injEq, Prod.mk.injEq] at heq
      obtain ⟨rfl, rfl, rfl⟩ := heq
      exact hacc.frame rfl (fun _ => id) rfl rfl fun _ => rfl
    · simp [he, Pc.account] at heq

/-! ## The reply -/

/-- Keys are heard, kept, handed on and counted. -/
structure Inv (n : Node κ ι) (stream : Stream κ) (s : State κ ι) : Prop where
  heard : Heard n stream s
  kept : Kept s
  handed : Handed n s
  counted : Counted n s

theorem Inv.start (n : Node κ ι) (stream : Stream κ) : Inv n stream (State.start stream) where
  heard := ⟨fun _ h => .inr (.inl h), by simp [State.start]⟩
  kept := ⟨by simp [State.start], by simp [State.start], False.elim, False.elim,
    by simp [State.start]⟩
  handed := ⟨by simp [State.start], by simp [State.start, Pc.due], by simp [State.start],
    by simp [State.start], by simp [State.start], by simp [State.start]⟩
  counted := ⟨by simp [State.start, State.forwarder], by simp [State.start, Pc.account]⟩

theorem Inv.step (s : State κ ι) (a : Action κ ι) (s' : State κ ι)
    (h : Inv n stream s) (hs : step n s a = some s') : Inv n stream s' :=
  have hm := move_of_step hs
  ⟨h.heard.move hm, h.kept.move hm, h.handed.move hm, h.counted.move h.handed hm⟩

/-- Three owners, this node among them. -/
def trio : Node ℕ ℕ := { self := 0, writeSet := fun _ => [0, 1, 2], putChunkBytes := 10 }

end Dstore.Put

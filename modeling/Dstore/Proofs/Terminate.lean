import Dstore.Lib.Tally
import Dstore.Proofs.Cover

/-!
# The mark is complete when it is declared complete

A poll that finds all workers idle with the sums of the poll before squeezes the counters in
between: at the moment it began, every worker was idle and every batch taken
(`Polled.quiet_of_good`).
-/

namespace Dstore.Mark

variable {κ : Type}

open MarkState

/-- Sent and received are what is on the network. -/
structure Counted (P : Params κ) (s : State κ) : Prop where
  sent : (s.mark .coord).sent + (P.acked.map fun id => (s.mark (.node id)).sent).sum = s.net.length
  recv : (P.acked.map fun id => (s.mark (.node id)).recv).sum = s.got.length
  numbered : ∀ b ∈ s.net, b.seq ≤ (s.mark b.src).seqs b.dst
  net_nodup : s.net.Nodup
  got_nodup : s.got.Nodup
  got_net : s.got ⊆ s.net
  seen : ∀ b ∈ s.got, (s.mark (.node b.dst)).seen b

/-- No worker has anything to do, and no batch is on its way. -/
structure Quiet (P : Params κ) (s : State κ) : Prop where
  idle : ∀ id ∈ P.acked, (s.mark (.node id)).idle
  taken : s.net ⊆ s.got

variable {P : Params κ} {s s' : State κ}

variable {ms : MarkState κ} {p : Poll κ} {b : Batch κ} {id : NodeID}

theorem seen_iff :
    ms.seen b ↔ ∃ last, ms.seqSeen b.src = some last ∧ b.seq ≤ last := by
  unfold MarkState.seen
  split <;> simp_all

theorem sum_set (P : Params κ) (f : MarkState κ → ℕ) {n : ℕ} (hid : id ∈ P.acked)
    (h : f ms = f (s.mark (.node id)) + n) :
    (P.acked.map fun j => f ((s.set (.node id) ms).mark (.node j))).sum =
      (P.acked.map fun j => f (s.mark (.node j))).sum + n := by
  refine Tally.sum_map_add P.acked_nodup hid (by rw [State.set_mark_self, h]) fun j _ hj => ?_
  rw [State.set_mark_of_ne s ms (by simpa using hj)]

namespace Counted

theorem frame (hc : Counted P s) (hnet : s'.net = s.net) (hgot : s'.got = s.got)
    (h : ∀ x, (s'.mark x).sent = (s.mark x).sent ∧ (s'.mark x).recv = (s.mark x).recv ∧
      (s'.mark x).seqs = (s.mark x).seqs ∧ (s'.mark x).seqSeen = (s.mark x).seqSeen) :
    Counted P s' := by
  refine ⟨?_, ?_, ?_, hnet ▸ hc.net_nodup, hgot ▸ hc.got_nodup,
    by rw [hnet, hgot]; exact hc.got_net,
    ?_⟩
  · simp only [(h _).1, hnet, hc.sent]
  · simp only [(h _).2.1, hgot, hc.recv]
  · intro b hb
    rw [(h _).2.2.1]
    exact hc.numbered b (hnet ▸ hb)
  · intro b hb
    have := seen_iff.1 (hc.seen b (hgot ▸ hb))
    rw [seen_iff, (h _).2.2.2]
    exact this

theorem set (hc : Counted P s) {x : Sender} {c : Coord κ}
    (h : ms.sent = (s.mark x).sent ∧ ms.recv = (s.mark x).recv ∧ ms.seqs = (s.mark x).seqs ∧
      ms.seqSeen = (s.mark x).seqSeen) :
    Counted P ((s.set x ms).goto c) :=
  hc.frame rfl rfl (State.forall_set (R := fun y ms => ms.sent = (s.mark y).sent ∧
    ms.recv = (s.mark y).recv ∧ ms.seqs = (s.mark y).seqs ∧ ms.seqSeen = (s.mark y).seqSeen) h
    fun _ _ => ⟨rfl, rfl, rfl, rfl⟩)

theorem not_mem_of_seq (hc : Counted P s) (h : (s.mark b.src).seqs b.dst < b.seq) :
    b ∉ s.net := fun hb => by
  have := hc.numbered b hb
  omega

/-- A batch that is sent is counted by its sender. -/
theorem send (hc : Counted P s) {x : Sender} {ids : List NodeID} (hx : x.In P)
    (hf : (s.mark x).flush x id ids = (ms, some b)) :
    Counted P { s.set x ms with net := b :: s.net } := by
  obtain ⟨ob, -, hb, hms⟩ := flush_some hf
  have hnew : b ∉ s.net := hc.not_mem_of_seq (by simp [hb])
  have hsent : ms.sent = (s.mark x).sent + 1 := by rw [hms]
  have hall : ∀ y, ((s.set x ms).mark y).recv = (s.mark y).recv ∧
      ((s.set x ms).mark y).seqSeen = (s.mark y).seqSeen ∧
      ∀ o, (s.mark y).seqs o ≤ ((s.set x ms).mark y).seqs o := by
    refine State.forall_set (R := fun y ms => ms.recv = (s.mark y).recv ∧
      ms.seqSeen = (s.mark y).seqSeen ∧ ∀ o, (s.mark y).seqs o ≤ ms.seqs o) ?_
      fun _ _ => ⟨rfl, rfl, fun _ => le_rfl⟩
    rw [hms]
    refine ⟨rfl, rfl, fun o => ?_⟩
    rcases eq_or_ne o id with rfl | ho
    · simp
    · simp [Function.update_of_ne ho]
  refine ⟨?_, ?_, fun b' hb' => ?_, List.nodup_cons.2 ⟨hnew, hc.net_nodup⟩, hc.got_nodup,
    List.Subset.trans hc.got_net (List.subset_cons_self _ _), fun b' hb' => ?_⟩
  · rw [List.length_cons, ← hc.sent]
    cases x with
    | coord =>
      have hne : ∀ id, Sender.node id ≠ .coord := fun _ => Sender.noConfusion
      simp only [State.set_mark_self, State.set_mark_of_ne s _ (hne _), hsent]
      omega
    | node n =>
      have hne : Sender.coord ≠ .node n := Sender.noConfusion
      simp only [sum_set P MarkState.sent hx hsent, State.set_mark_of_ne s _ hne]
      omega
  · simp only [(hall _).1, hc.recv, State.set_got]
  · rcases List.mem_cons.1 hb' with rfl | hb'
    · simp [hb, hms]
    · exact (hc.numbered b' hb').trans ((hall _).2.2 _)
  · have := seen_iff.1 (hc.seen b' hb')
    rw [seen_iff, (hall _).2.1]
    exact this

/-- A batch that is new is counted by its receiver. -/
theorem receive [DecidableEq κ] (hc : Counted P s) (hb : b ∈ s.net) (ha : b.dst ∈ P.acked)
    (hs : (s.mark (.node b.dst)).seen b = false) :
    Counted P { s.set (.node b.dst) ((s.mark (.node b.dst)).handleKeys P b.dst b) with
      got := b :: s.got } := by
  have he := handleKeys_eq P b.dst (s.mark (.node b.dst)) b
  generalize (s.mark (.node b.dst)).handleKeys P b.dst b = ms at he
  generalize ms.marked = m at he
  have hnew : b ∉ s.got := fun hg => by simp [hc.seen b hg] at hs
  have hrecv : ms.recv = (s.mark (.node b.dst)).recv + 1 := by rw [he]
  have hall : ∀ y, ((s.set (.node b.dst) ms).mark y).sent = (s.mark y).sent ∧
      ((s.set (.node b.dst) ms).mark y).seqs = (s.mark y).seqs :=
    State.forall_set (R := fun y ms => ms.sent = (s.mark y).sent ∧ ms.seqs = (s.mark y).seqs)
      (by rw [he]; exact ⟨rfl, rfl⟩) fun _ _ => ⟨rfl, rfl⟩
  refine ⟨?_, ?_, fun b' hb' => ?_, hc.net_nodup, List.nodup_cons.2 ⟨hnew, hc.got_nodup⟩,
    List.cons_subset.2 ⟨hb, hc.got_net⟩, fun b' hb' => ?_⟩
  · simp only [(hall _).1, hc.sent, State.set_net]
  · simp only [sum_set P MarkState.recv ha hrecv, hc.recv, List.length_cons]
  · rw [(hall _).2]
    exact hc.numbered b' hb'
  · rcases List.mem_cons.1 hb' with rfl | hb'
    · exact seen_iff.2 ⟨b'.seq, by simp [he], le_rfl⟩
    · obtain ⟨last, hl, hle⟩ := seen_iff.1 (hc.seen b' hb')
      rw [seen_iff]
      rcases eq_or_ne b'.dst b.dst with hd | hd
      · -- the batch taken is newer than all this sender's that were seen
        rw [hd] at hl ⊢
        rw [State.set_mark_self, he]
        rcases eq_or_ne b'.src b.src with hsrc | hsrc
        · refine ⟨b.seq, by simp [hsrc], hle.trans (le_of_lt ?_)⟩
          simpa [MarkState.seen, ← hsrc, hl] using hs
        · exact ⟨last, by simp [Function.update_of_ne hsrc, hl], hle⟩
      · rw [State.set_mark_of_ne s ms (by simpa using hd)]
        exact ⟨last, hl, hle⟩

theorem taken (hc : Counted P s) (h : (s.mark .coord).sent +
    (P.acked.map fun id => (s.mark (.node id)).sent).sum =
      (P.acked.map fun id => (s.mark (.node id)).recv).sum) : s.net ⊆ s.got := by
  have hlen : s.net.length ≤ s.got.length := by
    rw [← hc.sent, ← hc.recv, h]
  have := (List.subperm_of_subset hc.got_nodup hc.got_net).perm_of_length_le hlen
  exact this.symm.subset

end Counted

/-! ## What every turn keeps -/

section Turn

variable [DecidableEq κ] (h : Turn P s s')

include h

theorem Turn.tidy (ht : ∀ x, (s.mark x).Tidy) : ∀ x, (s'.mark x).Tidy := by
  have hset : ∀ {x : Sender} {ms : MarkState κ}, ms.Tidy → ∀ y, ((s.set x ms).mark y).Tidy :=
    fun hms => State.forall_set (R := fun _ ms => ms.Tidy) hms fun y _ => ht y
  cases h with
  | same _ _ h => exact fun x => (h x).2.2
  | @process id k batch _ hw =>
    have hp := processed P id (s.mark (.node id)) k batch
    refine hset ⟨fun hd => ?_, fun b ids hs => ?_⟩
    · -- a worker that processes has a mark that changed
      rw [hp.counters.2.2.2.2.2] at hd
      have := ((ht _).clean hd).2.1
      simp [busy, hw] at this
    · have := hp.busy
      simp [busy, hs] at this
  | @fetch id _ _ ok _ hw =>
    have hb : (s.mark (.node id)).dirty ≠ false := fun hd => by
      have := ((ht (.node id)).clean hd).2.1
      simp [busy, hw] at this
    cases ok with
    | true => exact hset ⟨fun hd => absurd hd hb, by simp [fetched]⟩
    | false => exact hset ⟨fun hd => absurd hd hb, by simp [fetched]⟩
  | @send x _ _ _ _ _ _ hf =>
    obtain ⟨ob, -, -, rfl⟩ := flush_some hf
    refine hset ⟨fun hd => ?_, fun _ _ _ => ?_⟩
    · exact ⟨((ht x).clean hd).1, rfl, ((ht x).clean hd).2.2⟩
    · simp [KV.set]
  | receive =>
    refine hset ?_
    rw [handleKeys_eq]
    exact ⟨by simp, (ht _).sending⟩
  | root => exact hset ⟨by simp, (ht _).sending⟩
  | rootOut =>
    refine hset ⟨(ht .coord).clean, fun _ _ _ => ?_⟩
    simp [pushExpand, KV.set]

theorem Turn.absent (ha : ∀ id, id ∉ P.acked → s.mark (.node id) = {}) :
    ∀ id, id ∉ P.acked → s'.mark (.node id) = {} := by
  intro id hid
  rw [← ha id hid]
  have hne : ∀ {x : Sender}, x.In P → Sender.node id ≠ x := by
    rintro x hx rfl
    exact hid hx
  cases h with
  | same _ _ _ hun => exact hun id hid
  | process h => exact State.set_mark_of_ne s _ (hne h)
  | fetch h => exact State.set_mark_of_ne s _ (hne h)
  | send h => exact State.set_mark_of_ne s _ (hne h)
  | receive _ h => exact State.set_mark_of_ne s _ (hne h)
  | root _ h => exact State.set_mark_of_ne s _ (hne h)
  | rootOut => simp [State.goto, State.set]

theorem Turn.counted (hc : Counted P s) : Counted P s' := by
  cases h with
  | same hnet hgot h =>
    exact hc.frame hnet hgot fun x => ⟨(h x).1.sent, (h x).1.recv, (h x).1.seqs, (h x).1.seqSeen⟩
  | @process id k batch =>
    obtain ⟨h1, h2, h3, h4, -⟩ := (processed P id (s.mark (.node id)) k batch).counters
    exact hc.set (c := s.coord) ⟨h1, h2, h3, h4⟩
  | @fetch _ _ _ ok =>
    cases ok <;> exact hc.set (c := s.coord) ⟨rfl, rfl, rfl, rfl⟩
  | send hx _ hf => exact hc.send hx hf
  | receive hb ha hs => exact hc.receive hb ha hs
  | root => exact hc.set ⟨rfl, rfl, rfl, rfl⟩
  | rootOut => exact hc.set ⟨rfl, rfl, rfl, rfl⟩

theorem Turn.traced (hc : Counted P s) (ht : Traced P s) : Traced P s' := by
  cases h with
  | same hnet hgot h _ hleft =>
    exact ht.grown (fun x => .of_same (h x).1) (flight_of_eq hnet hgot)
      (fun k hk => .inl (hleft k hk)) fun x k hk => .inl ((h x).1.fetching k hk)
  | process _ hw => exact ht.process hw (processed ..)
  | fetch _ hw => exact ht.fetch hw
  | send _ hw hf =>
    obtain ⟨ob, -, hb, -⟩ := flush_some hf
    exact ht.send hw hf fun hg => hc.not_mem_of_seq (by simp [hb]) (hc.got_net hg)
  | receive => exact ht.receive
  | root hc => exact ht.root hc
  | rootOut hc => exact ht.rootOut hc

/-- Counters go up. -/
theorem Turn.later (hr : ∀ todo, s.coord ≠ .roots todo) (id : NodeID) :
    Later (s.mark (.node id)) (s'.mark (.node id)) := by
  have hset : ∀ {x : Sender} {ms : MarkState κ}, Later (s.mark x) ms →
      Later (s.mark (.node id)) ((s.set x ms).mark (.node id)) :=
    fun hms => State.forall_set (R := fun y ms => Later (s.mark y) ms) hms
      (fun y _ => .refl _) (.node id)
  cases h with
  | same _ _ h => exact (h _).2.1
  | @process id k batch _ hw =>
    have hp := (processed P id (s.mark (.node id)) k batch).counters
    refine hset (.of_not_idle hp.1.ge hp.2.1.ge fun hi => ?_)
    have := (idle_iff.1 hi).2.1
    simp [busy, hw] at this
  | @fetch _ _ _ ok _ hw =>
    refine hset (.of_not_idle ?_ ?_ fun hi => ?_)
    · cases ok <;> exact le_rfl
    · cases ok <;> exact le_rfl
    · have := (idle_iff.1 hi).2.1
      simp [busy, hw] at this
  | send _ _ hf =>
    obtain ⟨ob, hg, -, rfl⟩ := flush_some hf
    refine hset (.of_not_idle (Nat.le_succ _) le_rfl fun hi => ?_)
    rw [get_of_entries_nil (idle_iff.1 hi).2.2] at hg
    simp at hg
  | receive =>
    refine hset ?_
    rw [handleKeys_eq]
    exact ⟨le_rfl, Nat.le_succ _, fun _ he => by simp at he⟩
  | root hc => exact absurd hc (hr _)
  | rootOut hc => exact absurd hc (hr _)

/-- Once nothing is under way, nothing will be. -/
theorem Turn.quiet (hr : ∀ todo, s.coord ≠ .roots todo) (hc : Counted P s)
    (ho : (s.mark .coord).out.entries = []) (hq : Quiet P s) :
    Quiet P s' ∧ ∀ id, (s'.mark (.node id)).recv = (s.mark (.node id)).recv := by
  have hrecv : s'.net = s.net ∧ s'.got = s.got ∧
      ∀ id, (s'.mark (.node id)).recv = (s.mark (.node id)).recv := by
    have hset : ∀ {x : Sender} {ms : MarkState κ}, ms.recv = (s.mark x).recv →
        ∀ id, ((s.set x ms).mark (.node id)).recv = (s.mark (.node id)).recv := fun hms id =>
      State.forall_set (R := fun y ms => ms.recv = (s.mark y).recv) hms (fun y _ => rfl) (.node id)
    cases h with
    | same hnet hgot h => exact ⟨hnet, hgot, fun id => (h _).1.recv⟩
    | process => exact ⟨rfl, rfl, hset (processed ..).counters.2.1⟩
    | @fetch _ _ _ ok =>
      cases ok <;> exact ⟨rfl, rfl, hset rfl⟩
    | @send x _ _ _ _ hx _ hf =>
      obtain ⟨ob, hg, -, -⟩ := flush_some hf
      have hnil : (s.mark x).out.entries = [] := by
        cases x with
        | coord => exact ho
        | node id => exact (idle_iff.1 (hq.idle id hx)).2.2
      rw [get_of_entries_nil hnil] at hg
      simp at hg
    | receive hb _ hs =>
      have := hc.seen _ (hq.taken hb)
      rw [this] at hs
      simp at hs
    | root hc => exact absurd hc (hr _)
    | rootOut hc => exact absurd hc (hr _)
  obtain ⟨hnet, hgot, hrecv⟩ := hrecv
  refine ⟨⟨fun id hid => ?_, by rw [hnet, hgot]; exact hq.taken⟩, hrecv⟩
  exact ((h.later hr id).idle (hq.idle id hid) (hrecv id)).1

end Turn

/-! ## The polls -/

/-- What an answer tells of the worker since: if it was idle then and has received nothing more, it
is idle with the same counters; with `written`, it has nothing to write either. -/
structure Since (written : Bool) (r : Status κ) (ms : MarkState κ) : Prop where
  sent : r.sent ≤ ms.sent
  recv : r.recv ≤ ms.recv
  idle : r.idle → ms.recv = r.recv → ms.idle ∧ ms.sent = r.sent ∧ ms.missing = r.missing ∧
    (written → ms.dirty = false)

theorem Since.later {written : Bool} {r : Status κ} {ms ms' : MarkState κ}
    (h : Since written r ms) (hl : Later ms ms') : Since written r ms' := by
  refine ⟨h.sent.trans hl.sent, h.recv.trans hl.recv, fun hi hr => ?_⟩
  have hr' : ms.recv = r.recv := le_antisymm (hr ▸ hl.recv) h.recv
  obtain ⟨h1, h2, h3, h4⟩ := h.idle hi hr'
  obtain ⟨l1, l2, l3, l4⟩ := hl.idle h1 (hr.trans hr'.symm)
  exact ⟨l1, l2.trans h2, l3.trans h3, fun hw => l4 (h4 hw)⟩

theorem Since.report (s : State κ) (id : NodeID) :
    Since false (s.report id) (s.mark (.node id)) :=
  ⟨le_rfl, le_rfl, fun hi _ => ⟨hi, rfl, rfl, by simp⟩⟩

theorem status_counters (ms : MarkState κ) (persisted : Bool) :
    (ms.status persisted).2.sent = ms.sent ∧ (ms.status persisted).2.recv = ms.recv ∧
      (ms.status persisted).2.missing = ms.missing := by
  unfold MarkState.status
  split_ifs <;> exact ⟨rfl, rfl, rfl⟩

theorem Since.status (ms : MarkState κ) (persisted : Bool) :
    Since true (ms.status persisted).2 (ms.status persisted).1 := by
  have hl := Later.status ms persisted
  have hc := status_counters ms persisted
  refine ⟨hc.1 ▸ hl.sent, hc.2.1 ▸ hl.recv, fun hi hr => ?_⟩
  obtain ⟨hidle, hd⟩ := status_idle hi
  obtain ⟨l1, l2, l3, -⟩ := hl.idle hidle (hr.trans hc.2.1)
  exact ⟨l1, l2.trans hc.1.symm, l3.trans hc.2.2.symm, fun _ => hd⟩

/-- What a poll knows of the nodes. -/
structure Polled (P : Params κ) (s : State κ) (p : Poll κ) : Prop where
  acked : P.acked = p.polled ++ p.todo
  mid : ∀ id ∈ P.acked, Since false (p.mid id) (s.mark (.node id))
  cur : ∀ id ∈ p.polled, Since true (p.cur id) (s.mark (.node id)) ∧
    (p.mid id).sent ≤ (p.cur id).sent ∧ (p.mid id).recv ≤ (p.cur id).recv
  quiet : (∀ id ∈ P.acked, (p.mid id).idle) → (s.mark .coord).sent +
    (P.acked.map fun id => (p.mid id).sent).sum = (P.acked.map fun id => (p.mid id).recv).sum →
    Quiet P s ∧ ∀ id ∈ P.acked, (s.mark (.node id)).recv = (p.mid id).recv
  prev : 1 ≤ p.stable → p.lastSum = ((s.mark .coord).sent +
    (P.acked.map fun id => (p.prev id).sent).sum, (P.acked.map fun id => (p.prev id).recv).sum) ∧
    ∀ id ∈ P.acked, (p.prev id).sent ≤ (p.mid id).sent ∧ (p.prev id).recv ≤ (p.mid id).recv ∧
      ((p.mid id).recv = (p.prev id).recv → (p.mid id).idle ∧ (p.mid id).sent = (p.prev id).sent)

theorem Polled.later (h : Polled P s p) (hl : ∀ id, Later (s.mark (.node id)) (s'.mark (.node id)))
    (hc : (s'.mark .coord).sent = (s.mark .coord).sent)
    (hq : Quiet P s → Quiet P s' ∧ ∀ id, (s'.mark (.node id)).recv = (s.mark (.node id)).recv) :
    Polled P s' p := by
  refine ⟨h.acked, fun id hid => (h.mid id hid).later (hl id),
    fun id hid => ⟨(h.cur id hid).1.later (hl id), (h.cur id hid).2⟩, fun hi hs => ?_, ?_⟩
  · obtain ⟨h1, h2⟩ := h.quiet hi (hc ▸ hs)
    obtain ⟨h3, h4⟩ := hq h1
    exact ⟨h3, fun id hid => (h4 id).trans (h2 id hid)⟩
  · rw [hc]
    exact h.prev

theorem Polled.begin (hcount : Counted P s) (hpolled : p.polled = []) (htodo : p.todo = P.acked)
    (hmid : p.mid = s.report)
    (hprev : 1 ≤ p.stable →
      p.lastSum = ((s.mark .coord).sent + (P.acked.map fun id => (p.prev id).sent).sum,
        (P.acked.map fun id => (p.prev id).recv).sum) ∧
      ∀ id ∈ P.acked, (p.prev id).idle ∧ Since true (p.prev id) (s.mark (.node id))) :
    Polled P s p := by
  refine ⟨by simp [hpolled, htodo], fun id _ => hmid ▸ Since.report s id, by simp [hpolled],
    fun hi hs => ?_, fun hst => ⟨(hprev hst).1, fun id hid => ?_⟩⟩
  · rw [hmid] at hi hs ⊢
    exact ⟨⟨hi, hcount.taken hs⟩, fun _ _ => rfl⟩
  · obtain ⟨hi, hs⟩ := (hprev hst).2 id hid
    rw [hmid]
    refine ⟨hs.sent, hs.recv, fun hr => ?_⟩
    obtain ⟨h1, h2, -⟩ := hs.idle hi hr
    exact ⟨h1, h2⟩

theorem Polled.answer {todo : List NodeID} {r : Status κ} (h : Polled P s p)
    (htodo : p.todo = id :: todo) (hr : Since true r (s.mark (.node id)))
    (hs : (p.mid id).sent ≤ r.sent) (hv : (p.mid id).recv ≤ r.recv) :
    Polled P s { p with
      polled := p.polled ++ [id]
      todo := todo
      cur := Function.update p.cur id r } := by
  have hnew : id ∉ p.polled := by
    have := P.acked_nodup
    rw [h.acked, htodo] at this
    exact fun hid => (List.nodup_append.1 this).2.2 id hid id (by simp) rfl
  refine ⟨by simp [h.acked, htodo], h.mid, fun j hj => ?_, h.quiet, h.prev⟩
  rcases List.mem_append.1 hj with hj | hj
  · have hne : j ≠ id := fun he => hnew (he ▸ hj)
    simp only [Function.update_of_ne hne]
    exact h.cur j hj
  · obtain rfl := List.mem_singleton.1 hj
    simp only [Function.update_self]
    exact ⟨hr, hs, hv⟩

/-- A good poll after a good one: every counter is where it was when the poll began, so all was
quiet then, and is. -/
theorem Polled.quiet_of_good (h : Polled P s p) (htodo : p.todo = []) (hstable : 1 ≤ p.stable)
    (hgood : p.good P (s.mark .coord).sent) :
    Quiet P s ∧ ∀ id ∈ P.acked, (s.mark (.node id)).dirty = false ∧
      (s.mark (.node id)).missing = (p.cur id).missing := by
  have hpolled : P.acked = p.polled := by simpa [htodo] using h.acked
  obtain ⟨hidle, hsum, hlast⟩ : (∀ id ∈ P.acked, (p.cur id).idle) ∧
      (p.sum P (s.mark .coord).sent).1 = (p.sum P (s.mark .coord).sent).2 ∧
      p.sum P (s.mark .coord).sent = p.lastSum := by simpa [Poll.good] using hgood
  obtain ⟨hlast', hprev⟩ := h.prev hstable
  rw [hlast'] at hlast
  simp only [Poll.sum, Prod.mk.injEq, Nat.add_left_cancel_iff] at hlast hsum
  have hcur := fun id hid => h.cur id (hpolled ▸ hid)
  have hsent := Tally.eq_of_sum_eq
    (fun id hid => (hprev id hid).1.trans (hcur id hid).2.1) hlast.1.symm
  have hrecv := Tally.eq_of_sum_eq
    (fun id hid => (hprev id hid).2.1.trans (hcur id hid).2.2) hlast.2.symm
  -- the counters when the poll began lie between the two readings
  have hmid : ∀ id ∈ P.acked, (p.mid id).sent = (p.cur id).sent ∧
      (p.mid id).recv = (p.cur id).recv ∧ (p.mid id).idle := by
    intro id hid
    obtain ⟨h1, h2, h3⟩ := hprev id hid
    obtain ⟨-, h4, h5⟩ := hcur id hid
    have h6 := hsent id hid
    have h7 := hrecv id hid
    exact ⟨by omega, by omega, (h3 (by omega)).1⟩
  obtain ⟨hq, hr⟩ := h.quiet (fun id hid => (hmid id hid).2.2) (by
    rw [List.map_congr_left fun id hid => (hmid id hid).1,
      List.map_congr_left fun id hid => (hmid id hid).2.1]
    exact hsum)
  refine ⟨hq, fun id hid => ?_⟩
  obtain ⟨-, -, h3, h4⟩ := (hcur id hid).1.idle (hidle id hid)
    ((hr id hid).trans (hmid id hid).2.1)
  exact ⟨h4 rfl, h3⟩

/-! ## The coordinator -/

/-- The node has nothing to do and nothing to send. -/
def Still (ms : MarkState κ) : Prop := ms.worker = .waiting ∧ ms.out.entries = []

/-- A sender that flushes what it has once: whom it has a batch for is still among its targets. -/
def Flushing (ms : MarkState κ) : Prop :=
  match ms.worker with
  | .waiting => ms.out.entries = []
  | .resting => ∀ o ob, ms.out.get o = some ob → ob.expand ≠ []
  | .flushing ids | .sending _ ids => ∀ o ob, ms.out.get o = some ob → o ∈ ids
  | _ => False

/-- What is known from where the coordinator is. -/
def Coordinated (P : Params κ) (s : State κ) : Prop :=
  match s.coord with
  | .roots _ => (s.mark .coord).worker = .waiting ∧
    ∀ o ob, (s.mark .coord).out.get o = some ob → ob.expand ≠ []
  | .sending => Flushing (s.mark .coord)
  | .polling p => Still (s.mark .coord) ∧ Polled P s p
  | .done p => Still (s.mark .coord) ∧ Quiet P s ∧ ∀ id ∈ P.acked,
    (s.mark (.node id)).dirty = false ∧ (s.mark (.node id)).missing = (p.cur id).missing
  | .aborted => True

/-- Batches are counted, keys are traced, and what the coordinator knows is right. -/
structure Inv [DecidableEq κ] (P : Params κ) (s : State κ) : Prop where
  tidy : ∀ x, (s.mark x).Tidy
  absent : ∀ id, id ∉ P.acked → s.mark (.node id) = {}
  counted : Counted P s
  traced : Traced P s
  coord : Coordinated P s

theorem inv_start [DecidableEq κ] : Inv P (start P) where
  tidy _ := ⟨fun _ => ⟨rfl, rfl, by simp [start]⟩, by simp [start]⟩
  absent _ _ := rfl
  counted := ⟨by simp [start], by simp [start], by simp [start], .nil, .nil, by simp [start],
    by simp [start]⟩
  traced := ⟨fun _ hk => .inl hk, by simp [start], by simp [start], by simp [start]⟩
  coord := ⟨rfl, by simp [start]⟩

/-- A node's step leaves the coordinator's knowledge right. -/
theorem Coordinated.turn [DecidableEq κ] (h : Coordinated P s) (hcount : Counted P s)
    (ht : Turn P s s') (hphase : s'.coord = s.coord)
    (hself : s'.mark .coord = s.mark .coord ∨
      (s.mark .coord).worker ≠ .waiting ∧ (Flushing (s.mark .coord) → Flushing (s'.mark .coord))) :
    Coordinated P s' := by
  have hstill : (s.mark .coord).worker = .waiting → s'.mark .coord = s.mark .coord :=
    fun hw => hself.resolve_right fun h => h.1 hw
  unfold Coordinated at h ⊢
  rw [hphase]
  cases hc : s.coord with
  | roots todo =>
    simp only [hc] at h ⊢
    rw [hstill h.1]
    exact h
  | sending =>
    simp only [hc] at h ⊢
    rcases hself with hself | ⟨-, hself⟩
    · rw [hself]
      exact h
    · exact hself h
  | polling p =>
    simp only [hc] at h ⊢
    have hr : ∀ todo, s.coord ≠ .roots todo := by simp [hc]
    rw [hstill h.1.1]
    exact ⟨h.1, h.2.later (ht.later hr) (by rw [hstill h.1.1]) (ht.quiet hr hcount h.1.2)⟩
  | done p =>
    simp only [hc] at h ⊢
    have hr : ∀ todo, s.coord ≠ .roots todo := by simp [hc]
    obtain ⟨hst, hq, hm⟩ := h
    obtain ⟨hq', hrecv⟩ := ht.quiet hr hcount hst.2 hq
    refine ⟨by rw [hstill hst.1]; exact hst, hq', fun id hid => ?_⟩
    obtain ⟨-, -, h3, h4⟩ := (ht.later hr id).idle (hq.idle id hid) (hrecv id)
    exact ⟨h4 (hm id hid).1, h3.trans (hm id hid).2⟩
  | aborted => trivial

theorem Flushing.flushOut {order : List NodeID} (hw : ms.worker = .resting)
    (ho : order.Perm ms.targets) (h : Flushing ms) :
    Flushing { ms with worker := .flushing order } := by
  simp only [Flushing, hw] at h ⊢
  intro o ob hg
  refine ho.symm.subset ?_
  simp only [targets, List.mem_map, List.mem_filter]
  exact ⟨(o, ob), ⟨KV.get_eq_some.1 hg, by simp [h o ob hg]⟩, rfl⟩

theorem Flushing.waiting (hw : ms.worker = .flushing []) (h : Flushing ms) :
    Flushing { ms with worker := .waiting } := by
  simp only [Flushing, hw] at h ⊢
  refine List.eq_nil_iff_forall_not_mem.2 fun e he => ?_
  simpa using h e.1 e.2 (KV.get_eq_some.2 he)

theorem Flushing.flush {x : Sender} {ids : List NodeID} (hw : ms.worker = .flushing (id :: ids))
    (h : Flushing ms) :
    Flushing (ms.flush x id ids).1 := by
  simp only [Flushing, hw] at h
  unfold MarkState.flush
  split
  · rename_i hn
    simp only [Flushing]
    intro o ob hg
    rcases List.mem_cons.1 (h o ob hg) with rfl | ho
    · rw [hn] at hg
      cases hg
    · exact ho
  · rename_i ob hs
    split_ifs
    · simp only [Flushing]
      intro o ob' hg
      rw [KV.get_delete] at hg
      split_ifs at hg with ho
      exact (List.mem_cons.1 (h o ob' hg)).resolve_left ho
    · simp only [Flushing]
      intro o ob' hg
      rw [KV.get_set] at hg
      split_ifs at hg with ho
      · simp [ho]
      · exact h o ob' hg

section step

variable [DecidableEq κ] {a : Action κ}

theorem Inv.turn_of_step (hi : Inv P s) (h : step P s a = some s') : Turn P s s' := by
  refine Mark.turn_of_step hi.tidy (fun id hid => by rw [hi.absent id hid]) ?_ ?_ h
  · intro todo hc
    have := hi.coord
    simp only [Coordinated, hc] at this
    exact this.1
  · intro p hc
    have := hi.coord
    simp only [Coordinated, hc] at this
    rw [this.2.acked]
    exact List.subset_append_right _ _

/-- A step of the coordinator. -/
def Action.movesCoord : Action κ → Bool
  | .root | .send | .poll | .status _ | .settle | .abort => true
  | _ => false

/-- The coordinator's own mark changes only as it flushes, and its phase only by its own steps. -/
theorem coord_of_step (h : step P s a = some s') (ha : a.movesCoord = false) :
    s'.coord = s.coord ∧ (s'.mark .coord = s.mark .coord ∨ (s.mark .coord).worker ≠ .waiting ∧
      (Flushing (s.mark .coord) → Flushing (s'.mark .coord))) := by
  have hset : ∀ {x : Sender} {ms : MarkState κ},
      (x = .coord → (s.mark x).worker ≠ .waiting ∧ (Flushing (s.mark x) → Flushing ms)) →
      (s.set x ms).mark .coord = s.mark .coord ∨ (s.mark .coord).worker ≠ .waiting ∧
        (Flushing (s.mark .coord) → Flushing ((s.set x ms).mark .coord)) := by
    intro x ms hx
    rcases eq_or_ne x .coord with rfl | hne
    · rw [State.set_mark_self]
      exact .inr (hx rfl)
    · exact .inl (State.set_mark_of_ne s ms hne.symm)
  have hnode : ∀ (id : NodeID) (ms : MarkState κ),
      (s.set (.node id) ms).mark .coord = s.mark .coord := fun id ms =>
    State.set_mark_of_ne s ms Sender.noConfusion
  cases a with
  | take id =>
    simp only [step] at h
    split at h
    · split_ifs at h
      all_goals
        cases h
        exact ⟨rfl, .inl (hnode ..)⟩
    · simp at h
  | process id =>
    simp only [step] at h
    split at h
    · cases h
      exact ⟨rfl, .inl (hnode ..)⟩
    · simp at h
  | fetch id ok =>
    simp only [step] at h
    split at h
    · cases h
      exact ⟨rfl, .inl (hnode ..)⟩
    · simp at h
  | rest id =>
    simp only [step] at h
    split at h
    · cases h
      exact ⟨rfl, .inl (hnode ..)⟩
    · simp at h
  | flushOut x order =>
    simp only [step] at h
    split at h
    · rename_i hw
      split_ifs at h with ho
      cases h
      exact ⟨rfl, hset fun _ => ⟨by simp [hw], .flushOut hw ho⟩⟩
    · simp at h
  | flush x =>
    simp only [step] at h
    split at h
    · rename_i hw
      cases h
      exact ⟨rfl, hset fun _ => ⟨by simp [hw], .waiting hw⟩⟩
    · rename_i id ids hw
      cases h
      exact ⟨rfl, hset fun _ => ⟨by simp [hw], .flush hw⟩⟩
    · simp at h
  | reply x o =>
    simp only [step] at h
    split at h
    · rename_i b ids hw
      have hfl : ∀ m, Flushing (s.mark x) →
          Flushing { s.mark x with missing := m, worker := .flushing ids } := fun m hf => by
        simp only [Flushing, hw] at hf ⊢
        exact hf
      cases o with
      | acked =>
        simp only at h
        split_ifs at h
        cases h
        exact ⟨rfl, hset fun _ => ⟨by simp [hw], hfl _⟩⟩
      | refused =>
        cases h
        exact ⟨rfl, hset fun _ => ⟨by simp [hw], hfl _⟩⟩
      | gaveUp =>
        cases h
        exact ⟨rfl, hset fun _ => ⟨by simp [hw], hfl _⟩⟩
    · simp at h
  | receive b =>
    simp only [step] at h
    split_ifs at h
    · cases h
      exact ⟨rfl, .inl rfl⟩
    · cases h
      exact ⟨rfl, .inl (hnode b.dst (MarkState.handleKeys P b.dst (s.mark (.node b.dst)) b))⟩
  | freeze id persisted =>
    simp only [step] at h
    split at h
    · split_ifs at h
      cases h
      exact ⟨rfl, .inl (hnode ..)⟩
    · simp at h
  | root | send | poll | status | settle | abort => simp [Action.movesCoord] at ha

theorem Inv.coordinated (hi : Inv P s) (h : step P s a = some s') : Coordinated P s' := by
  have hturn := hi.turn_of_step h
  have hc := hi.coord
  rcases ha : a.movesCoord
  · obtain ⟨hphase, hself⟩ := coord_of_step h ha
    exact hc.turn hi.counted hturn hphase hself
  cases a with
  | root =>
    simp only [step] at h
    split at h
    · rename_i k todo hp
      simp only [Coordinated, hp] at hc
      split_ifs at h
      · cases h
        simpa [Coordinated, State.goto, State.set] using hc
      · cases h
        simpa [Coordinated, State.goto] using hc
      · cases h
        simp only [Coordinated, State.goto, State.set_mark_self]
        refine ⟨hc.1, fun o ob hg => ?_⟩
        simp only [pushExpand] at hg
        rw [KV.get_set] at hg
        split_ifs at hg
        · cases hg
          simp
        · exact hc.2 o ob hg
    · simp at h
  | send =>
    simp only [step] at h
    split at h
    · rename_i hp
      simp only [Coordinated, hp] at hc
      cases h
      simp only [Coordinated, State.goto, State.set_mark_self, Flushing]
      exact hc.2
    · simp at h
  | poll =>
    simp only [step] at h
    split at h
    · rename_i hp
      simp only [Coordinated, hp] at hc
      split at h
      · rename_i hw
        cases h
        simp only [Flushing, hw] at hc
        have hcount : Counted P _ := hturn.counted hi.counted
        exact ⟨⟨hw, hc⟩, .begin hcount rfl rfl rfl (by simp)⟩
      · simp at h
    · simp at h
  | status persisted =>
    simp only [step] at h
    split at h
    · rename_i p hp
      simp only [Coordinated, hp] at hc
      obtain ⟨hst, hpol⟩ := hc
      have hr : ∀ todo, s.coord ≠ .roots todo := by simp [hp]
      split at h
      · simp at h
      · rename_i id todo htodo
        have hmid := hpol.mid id (by simp [hpol.acked, htodo])
        cases h
        have hcoord : ∀ ms, (s.set (.node id) ms).mark .coord = s.mark .coord := fun ms =>
          State.set_mark_of_ne s ms Sender.noConfusion
        have hpol' := hpol.later (hturn.later hr) (by rw [State.goto, hcoord])
          (hturn.quiet hr hi.counted hst.2)
        refine ⟨by rw [State.goto, hcoord]; exact hst, hpol'.answer htodo ?_ ?_ ?_⟩
        · rw [State.goto, State.set_mark_self]
          exact Since.status _ _
        · rw [(status_counters ..).1]
          exact hmid.sent
        · rw [(status_counters ..).2.1]
          exact hmid.recv
    · simp at h
  | settle =>
    simp only [step] at h
    split at h
    · rename_i p hp
      simp only [Coordinated, hp] at hc
      obtain ⟨hst, hpol⟩ := hc
      have hcur := fun id hid => (hpol.cur id hid).1
      split_ifs at h with htodo hgood hstable hstable
      · cases h
        exact ⟨hst, (hpol.quiet_of_good (not_not.1 htodo) (by omega) hgood).imp_left fun hq =>
          ⟨hq.idle, hq.taken⟩⟩
      · cases h
        refine ⟨hst, .begin (hturn.counted hi.counted) rfl rfl rfl fun _ => ⟨rfl, fun id hid => ?_⟩⟩
        have hp : id ∈ p.polled := by simpa [not_not.1 htodo, hpol.acked] using hid
        exact ⟨by simp [Poll.good] at hgood; exact hgood.1 id hid, hcur id hp⟩
      · omega
      · cases h
        exact ⟨hst, .begin (hturn.counted hi.counted) rfl rfl rfl (by simp)⟩
    · simp at h
  | abort =>
    simp only [step] at h
    cases h
    trivial
  | _ => simp [Action.movesCoord] at ha

theorem inv_step (hi : Inv P s) (h : step P s a = some s') : Inv P s' := by
  have ht := hi.turn_of_step h
  exact ⟨ht.tidy hi.tidy, ht.absent hi.absent, ht.counted hi.counted,
    ht.traced hi.counted hi.traced, hi.coordinated h⟩

theorem inv_run {acts : List (Action κ)} (h : Machine.run (step P) (start P) acts = some s) :
    Inv P s :=
  Machine.invariant (fun _ _ _ hi h => inv_step hi h) acts inv_start h

end step

/-! ## Completeness -/

section quiet

variable [DecidableEq κ] (hi : Inv P s) (hq : Quiet P s) (hs : Still (s.mark .coord))

include hi hq hs

theorem batchFor_of_quiet (x : Sender) (o : NodeID) : (s.mark x).batchFor o = {} := by
  refine batchFor_of_entries_nil ?_ o
  cases x with
  | coord => exact hs.2
  | node id =>
    by_cases hid : id ∈ P.acked
    · exact (idle_iff.1 (hq.idle id hid)).2.2
    · rw [hi.absent id hid]
      rfl

theorem not_pendAt_of_quiet (k : κ) (d : NodeID) : ¬ s.PendAt k d := by
  rintro (hk | ⟨x, hk⟩ | ⟨b, hb, hg, -⟩)
  · by_cases hd : d ∈ P.acked
    · simp [waits_of_idle (hq.idle d hd)] at hk
    · simp [hi.absent d hd, waits, hand] at hk
  · simp [batchFor_of_quiet hi hq hs] at hk
  · exact hg (hq.taken hb)

theorem not_await_of_quiet (k : κ) (o : NodeID) : ¬ s.Await k o := by
  rintro (⟨x, hk⟩ | ⟨b, hb, hg, -⟩)
  · simp [batchFor_of_quiet hi hq hs] at hk
  · exact hg (hq.taken hb)

theorem settled_of_reachable (hleft : ∀ k, ¬ s.left k)
    (hm : ∀ id ∈ P.acked, (s.mark (.node id)).missing = []) {k : κ} (hk : P.Reachable k) :
    Settled P s k := by
  have hcov : ∀ {k}, Covered P s k → Settled P s k := fun h =>
    h.resolve_left fun ⟨d, hd⟩ => not_pendAt_of_quiet hi hq hs _ d hd
  induction hk with
  | root hk => exact hcov ((hi.traced.roots _ hk).resolve_left (hleft _))
  | @child k c _ hc ih =>
    rcases ih.2 with hl | hv | hp
    · simp [P.leaf_childKeys k hl] at hc
    · have hw : P.worker k ∈ P.acked := by
        refine not_not.1 fun hw => ?_
        simp [hi.absent _ hw] at hv
      rcases hi.traced.children _ k hv with hf | hmiss | hcs
      · exact absurd hf (not_fetching_of_idle (hq.idle _ hw) k)
      · simp [hm _ hw] at hmiss
      · exact hcov (hcs c hc)
    · exact absurd hp (not_pendAt_of_quiet hi hq hs k _)

end quiet

variable [DecidableEq κ]

theorem eligible_of_holds {o : NodeID} {k : κ} (hok : ∀ id, P.fails o id = none)
    (h : P.Holds o k) : P.eligible o k := by
  obtain ⟨seg, hseg, hlt, hk⟩ := h
  refine scanEligible_isSome.2 ⟨seg, hseg, hlt, ?_⟩
  rw [hok]
  exact hk

/-- When the coordinator declares the mark complete with no key missing, every key the roots lead
to is marked at every owner that acked, held it below its barrier and could read the index of each
of its packs, in memory and in the file. -/
theorem marked_of_done {acts : List (Action κ)}
    (hrun : Machine.run (step P) (start P) acts = some s) (hdone : s.coord = .done p)
    (hmissing : p.missing P = []) {k : κ} (hk : P.Reachable k) {o : NodeID} (ho : o ∈ P.acked)
    (hown : o ∈ P.placement.owners k ∨ o ∈ P.placement.pendingOwners k) (hheld : P.Holds o k)
    (hok : ∀ id, P.fails o id = none) :
    k ∈ (s.mark (.node o)).marked ∧ ∀ f, (s.mark (.node o)).file = some f → k ∈ f := by
  have hi := inv_run hrun
  have hel := eligible_of_holds hok hheld
  obtain ⟨hs, hq, hlast⟩ : Still (s.mark .coord) ∧ Quiet P s ∧ ∀ id ∈ P.acked,
      (s.mark (.node id)).dirty = false ∧ (s.mark (.node id)).missing = (p.cur id).missing := by
    simpa only [Coordinated, hdone] using hi.coord
  have hm : ∀ id ∈ P.acked, (s.mark (.node id)).missing = [] := fun id hid => by
    rw [(hlast id hid).2]
    exact List.flatMap_eq_nil_iff.1 hmissing id hid
  have hw : o ∈ P.placement.writeSet k := by
    simp only [Placement.writeSet, List.mem_append, List.mem_filter, decide_eq_true_eq]
    tauto
  have hset := settled_of_reachable hi hq hs (by simp [State.left, hdone]) hm hk
  have hmark := (hset.1 o hw ho).resolve_right (not_await_of_quiet hi hq hs k o) hel
  exact ⟨hmark, fun f hf => ((hi.tidy (.node o)).clean (hlast o ho).1).2.2 f hf hmark⟩

namespace Duo

/-- Two nodes and a directory `0` with two files under it; `2` works for the directory that `1`
owns. -/
def params : Params (Fin 3) where
  roots := [0]
  childKeys k := if k = 0 then [1, 2] else []
  leaf k := k ≠ 0
  leaf_childKeys := by decide
  zeroKey := 0
  placement :=
    { owners := fun k => if k = 0 then [1] else if k = 1 then [2] else [1, 2]
      rankIDs := fun k => if k = 0 then [2, 1] else [1, 2] }
  acked := [1, 2]
  acked_nodup := by decide
  segments _ := [⟨1, [0]⟩, ⟨2, [1, 2]⟩]
  eligibleBelow _ := 3
  node := 1
  node_ne_zero := by decide

/-- A batch is sent and received. -/
def sent (b : Batch (Fin 3)) : List (Action (Fin 3)) :=
  [.flushOut b.src [b.dst], .flush b.src, .receive b, .receive b, .reply b.src .acked,
    .flush b.src, .flush b.src]

def poll : List (Action (Fin 3)) := [.status true, .status true, .settle]

/-- The mark of three keys. -/
def cycle : List (Action (Fin 3)) :=
  [.root, .send] ++ sent ⟨.coord, 2, 1, [0], true⟩ ++ [.poll, .take 2, .process 2, .fetch 2 true,
    .rest 2] ++ sent ⟨.node 2, 1, 1, [0], false⟩ ++ [.take 2, .process 2, .process 2, .rest 2] ++
    sent ⟨.node 2, 1, 2, [2], false⟩ ++ poll ++ poll ++ poll

/-- The mark is done, and nothing is missing. -/
def complete (s : State (Fin 3)) : Bool :=
  match s.coord with
  | .done p => p.missing params = []
  | _ => false

end Duo

/-- A mark of two nodes that ends with the last file marked at both. -/
theorem marked_of_done_duo : ∃ s p, Machine.run (step Duo.params) (start Duo.params) Duo.cycle =
    some s ∧ s.coord = .done p ∧ p.missing Duo.params = [] ∧
    ∀ o ∈ [1, 2], 2 ∈ (s.mark (.node o)).marked ∧
      ∀ f, (s.mark (.node o)).file = some f → 2 ∈ f := by
  have hend : ∃ s ∈ Machine.run (step Duo.params) (start Duo.params) Duo.cycle,
      Duo.complete s := by
    decide +kernel
  obtain ⟨s, hrun, hend⟩ := hend
  cases hc : s.coord with
  | done p =>
    have hend : p.missing Duo.params = [] := by simpa [Duo.complete, hc] using hend
    have hk : Duo.params.Reachable 2 :=
      .child (k := 0) (.root (by decide)) (by decide)
    refine ⟨s, p, hrun, hc, hend, fun o ho => ?_⟩
    exact marked_of_done hrun hc hend hk ho (.inl (by simpa [Duo.params] using ho))
      ⟨⟨2, [1, 2]⟩, by simp [Duo.params], Nat.lt_succ_self 2, by decide⟩ fun _ => rfl
  | _ => simp [Duo.complete, hc] at hend

/-- The same two nodes, of which `1` cannot read the index of its second pack. -/
def Duo.unread : Params (Fin 3) :=
  { Duo.params with fails := fun o id => if o = 1 ∧ id = 2 then some 0 else none }

/-- The mark ends as if nothing were missing, and the last file is not marked at `1`, which owns it
and holds it. -/
theorem held_not_marked : ∃ s ∈ Machine.run (step Duo.unread) (start Duo.unread) Duo.cycle,
    Duo.complete s ∧ Duo.unread.Reachable 2 ∧ 1 ∈ Duo.unread.placement.owners 2 ∧
    Duo.unread.Holds 1 2 ∧ 2 ∉ (s.mark (.node 1)).marked ∧ 2 ∈ (s.mark (.node 2)).marked := by
  have hend : ∃ s ∈ Machine.run (step Duo.unread) (start Duo.unread) Duo.cycle,
      Duo.complete s ∧ 2 ∉ (s.mark (.node 1)).marked ∧ 2 ∈ (s.mark (.node 2)).marked := by
    decide +kernel
  obtain ⟨s, hrun, hend, hnot, hin⟩ := hend
  exact ⟨s, hrun, hend, .child (k := 0) (.root (by decide)) (by decide), by decide,
    ⟨⟨2, [1, 2]⟩, by decide, by decide, by decide⟩, hnot, hin⟩

end Dstore.Mark

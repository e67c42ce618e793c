import Dstore.Mark
import Dstore.Proofs.Index

/-!
# What a step of the mark may do

Most turns of a worker only move it along its loop (`Same`); `Turn` says what each of the others
does.
-/

namespace Dstore.Mark

variable {κ : Type}

namespace MarkState

/-- The keys a worker has taken off its queue. -/
def hand (ms : MarkState κ) : List κ :=
  match ms.worker with
  | .processing batch | .fetching _ batch => batch
  | _ => []

/-- The keys that have still to be processed. -/
def waits (ms : MarkState κ) : List κ := ms.queue ++ ms.hand

/-- The worker waits for this key's data. -/
def Fetching (ms : MarkState κ) (k : κ) : Prop := ∃ batch, ms.worker = .fetching k batch

/-- A mark that did not change since it was written is all in the file, and nothing will change
it; while a batch is being sent, its target is among those to flush. -/
structure Tidy (ms : MarkState κ) : Prop where
  clean : ms.dirty = false → ms.queue = [] ∧ ms.busy = false ∧ ∀ f, ms.file = some f → ms.marked ⊆ f
  sending : ∀ b ids, ms.worker = .sending b ids → ms.out.entries ≠ []

/-- What a step may change of a node's counters. -/
structure Later (ms ms' : MarkState κ) : Prop where
  sent : ms.sent ≤ ms'.sent
  recv : ms.recv ≤ ms'.recv
  idle : ms.idle → ms'.recv = ms.recv → ms'.idle ∧ ms'.sent = ms.sent ∧ ms'.missing = ms.missing ∧
    (ms.dirty = false → ms'.dirty = false)

/-- The step has left marks, batches and counters alone. -/
structure Same (ms ms' : MarkState κ) : Prop where
  marked : ms'.marked = ms.marked
  visited : ms'.visited = ms.visited
  forward : ms'.forward = ms.forward
  sent : ms'.sent = ms.sent
  recv : ms'.recv = ms.recv
  seqs : ms'.seqs = ms.seqs
  seqSeen : ms'.seqSeen = ms.seqSeen
  missing : ms.missing ⊆ ms'.missing
  batchFor : ∀ o, ms'.batchFor o = ms.batchFor o
  waits : ms.waits ⊆ ms'.waits
  fetching : ∀ k, ms.Fetching k → ms'.Fetching k

variable {ms : MarkState κ} {x : Sender} {ids : List NodeID} {ob : OutBatch κ} {k : κ}

variable {ms ms' : MarkState κ} {w : Worker κ} {c : Coord κ}

theorem idle_iff :
    ms.idle ↔ ms.queue = [] ∧ ms.busy = false ∧ ms.out.entries = [] := by
  simp [idle]

theorem Later.refl (ms : MarkState κ) : Later ms ms :=
  ⟨le_rfl, le_rfl, fun h _ => ⟨h, rfl, rfl, id⟩⟩

theorem Later.of_not_idle (hs : ms.sent ≤ ms'.sent) (hr : ms.recv ≤ ms'.recv) (h : ¬ ms.idle) :
    Later ms ms' :=
  ⟨hs, hr, fun hi => absurd hi h⟩

theorem Same.refl (ms : MarkState κ) : Same ms ms :=
  ⟨rfl, rfl, rfl, rfl, rfl, rfl, rfl, fun _ h => h, fun _ => rfl, fun _ h => h, fun _ h => h⟩

theorem get_of_entries_nil (h : ms.out.entries = []) (o : NodeID) :
    ms.out.get o = none := by
  simp [KV.get, h]

theorem batchFor_of_entries_nil (h : ms.out.entries = []) (o : NodeID) :
    ms.batchFor o = {} := by
  simp [batchFor, get_of_entries_nil h]

theorem waits_of_idle (h : ms.idle) : ms.waits = [] := by
  obtain ⟨hq, hb, -⟩ := idle_iff.1 h
  unfold waits hand
  unfold busy at hb
  split <;> simp_all

theorem not_fetching_of_idle (h : ms.idle) (k : κ) : ¬ ms.Fetching k := by
  rintro ⟨batch, hw⟩
  have hb := (idle_iff.1 h).2.1
  simp [busy, hw] at hb

section deliver

variable (P : Params κ) (self : NodeID) (ms : MarkState κ) (k : κ)

/-- The step has marked a key or put it into batches, and nothing else. -/
structure Told (ms ms' : MarkState κ) : Prop where
  eq : ms' = { ms with marked := ms'.marked, out := ms'.out }
  marked : ms.marked ⊆ ms'.marked
  keys : ∀ o, (ms.batchFor o).keys ⊆ (ms'.batchFor o).keys
  expand : ∀ o, (ms.batchFor o).expand ⊆ (ms'.batchFor o).expand

theorem Told.refl : Told ms ms := ⟨rfl, fun _ h => h, fun _ _ h => h, fun _ _ h => h⟩

theorem Told.trans {a b c : MarkState κ} (h : Told a b) (h' : Told b c) : Told a c := by
  refine ⟨?_, List.Subset.trans h.marked h'.marked,
    fun o => List.Subset.trans (h.keys o) (h'.keys o),
    fun o => List.Subset.trans (h.expand o) (h'.expand o)⟩
  rw [h'.eq, h.eq]

theorem batchFor_pushKey (id o : NodeID) : (ms.pushKey id k).batchFor o =
    if o = id then { ms.batchFor id with keys := (ms.batchFor id).keys ++ [k] }
    else ms.batchFor o := by
  unfold batchFor pushKey
  rw [KV.get_set]
  split <;> simp_all [batchFor]

theorem batchFor_pushExpand (id o : NodeID) : (ms.pushExpand id k).batchFor o =
    if o = id then { ms.batchFor id with expand := (ms.batchFor id).expand ++ [k] }
    else ms.batchFor o := by
  unfold batchFor pushExpand
  rw [KV.get_set]
  split <;> simp_all [batchFor]

theorem told_foldl {β : Type} {f : MarkState κ → β → MarkState κ} (hf : ∀ ms b, Told ms (f ms b)) :
    ∀ (l : List β) (ms : MarkState κ), Told ms (l.foldl f ms)
  | [], ms => .refl ms
  | b :: l, ms => (hf ms b).trans (told_foldl hf l (f ms b))

variable [DecidableEq κ]

theorem told_markKey : Told ms (ms.markKey P self k) := by
  unfold markKey
  split
  · exact ⟨rfl, fun _ h => List.mem_insert_of_mem h, fun _ _ h => h, fun _ _ h => h⟩
  · exact .refl ms

theorem mem_markKey (h : P.eligible self k) : k ∈ (ms.markKey P self k).marked := by
  simp [markKey, h]

/-- One owner is told, or marks the key itself. -/
theorem told_deliverTo (o : NodeID) : Told ms (ms.deliverTo P self k o) := by
  unfold deliverTo
  split_ifs
  · exact told_markKey P self ms k
  · refine ⟨rfl, fun _ h => h, fun o' j hj => ?_, fun o' j hj => ?_⟩ <;>
      rw [batchFor_pushKey] <;> split_ifs with h
    · exact List.mem_append_left _ (h ▸ hj)
    · exact hj
    · exact h ▸ hj
    · exact hj
  · exact .refl ms

theorem told_deliver : Told ms (ms.deliver P self k) :=
  told_foldl (fun ms o => told_deliverTo P self ms k o) _ ms

/-- Every acked owner of the key is told. -/
theorem deliver_owner {o : NodeID} (ho : o ∈ P.placement.writeSet k) (ha : o ∈ P.acked) :
    if o = self then P.eligible self k → k ∈ (ms.deliver P self k).marked
    else k ∈ ((ms.deliver P self k).batchFor o).keys := by
  unfold deliver
  generalize P.placement.writeSet k = owners at ho ⊢
  induction owners generalizing ms with
  | nil => simp at ho
  | cons o' l ih =>
    rcases List.mem_cons.1 ho with rfl | ho
    · have hl := told_foldl (fun ms o => told_deliverTo P self ms k o) l
        (ms.deliverTo P self k o)
      rw [List.foldl_cons]
      split_ifs with h
      · intro he
        refine hl.marked ?_
        rw [deliverTo, if_neg (not_not.2 ha), if_pos h]
        exact mem_markKey P self ms k he
      · refine hl.keys o ?_
        simp [deliverTo, ha, h, batchFor_pushKey]
    · exact ih _ ho

end deliver

theorem Same.goto (hm : ms.hand = []) (hf : ∀ k, ¬ ms.Fetching k) :
    Same ms { ms with worker := w } :=
  ⟨rfl, rfl, rfl, rfl, rfl, rfl, rfl, fun _ h => h, fun _ => rfl,
    fun _ h => List.mem_append_left _ (by simpa [MarkState.waits, hm] using h),
    fun k h => absurd h (hf k)⟩

theorem Same.take (hw : ms.worker = .waiting) (n : ℕ) :
    Same ms { ms with queue := ms.queue.drop n, worker := .processing (ms.queue.take n) } := by
  refine ⟨rfl, rfl, rfl, rfl, rfl, rfl, rfl, fun _ h => h, fun _ => rfl, fun k hk => ?_, ?_⟩
  · have hk : k ∈ ms.queue := by simpa [MarkState.waits, hand, hw] using hk
    rw [← List.take_append_drop n ms.queue] at hk
    exact List.mem_append.2 (List.mem_append.1 hk).symm
  · rintro k ⟨batch, h⟩
    simp [hw] at h

theorem Same.refused {b : Batch κ} (hw : ms.worker = .sending b ids) (z : List κ) :
    Same ms { ms with missing := ms.missing ++ z, worker := .flushing ids } := by
  refine ⟨rfl, rfl, rfl, rfl, rfl, rfl, rfl, List.subset_append_left _ _, fun _ => rfl,
    fun k hk => ?_, ?_⟩
  · exact List.mem_append_left _ (by simpa [MarkState.waits, hand, hw] using hk)
  · rintro k ⟨batch, h⟩
    simp [hw] at h

theorem pick_nil (h : (pick ob).1 = []) : ob = {} := by
  obtain ⟨keys, expand⟩ := ob
  unfold pick at h
  split_ifs at h with he
  · simp [maxKeys] at h
    exact absurd h he
  · simp [maxKeys] at h
    simp_all

theorem Same.drop {id : NodeID} {ids ids' : List NodeID} (hw : ms.worker = .flushing ids)
    (hg : ms.out.get id = some ob) (hp : (pick ob).1 = []) :
    Same ms { ms with out := ms.out.delete id, worker := .flushing ids' } := by
  refine ⟨rfl, rfl, rfl, rfl, rfl, rfl, rfl, fun _ h => h, fun o => ?_, fun k hk => ?_, ?_⟩
  · simp only [MarkState.batchFor]
    rw [KV.get_delete]
    split_ifs with h
    · rw [h, hg, pick_nil hp]
      rfl
    · rfl
  · exact List.mem_append_left _ (by simpa [MarkState.waits, hand, hw] using hk)
  · rintro k ⟨batch, h⟩
    simp [hw] at h

theorem Same.status (ms : MarkState κ) (persisted : Bool) : Same ms (ms.status persisted).1 := by
  unfold MarkState.status
  split_ifs
  · exact ⟨rfl, rfl, rfl, rfl, rfl, rfl, rfl, fun _ h => h, fun _ => rfl, fun _ h => h,
      fun _ h => h⟩
  · exact .refl ms
  · exact .refl ms

theorem Later.of_eq (hi : ms.idle → ms'.idle) (hs : ms'.sent = ms.sent) (hr : ms'.recv = ms.recv)
    (hm : ms'.missing = ms.missing) (hd : ms.dirty = false → ms'.dirty = false) : Later ms ms' :=
  ⟨hs.ge, hr.ge, fun h _ => ⟨hi h, hs, hm, hd⟩⟩

theorem Tidy.goto (h : ms.Tidy) (hw : ∀ b ids, w ≠ .sending b ids)
    (hb : ms.busy = false → ({ ms with worker := w } : MarkState κ).busy = false) :
    ({ ms with worker := w } : MarkState κ).Tidy :=
  ⟨fun hd => ⟨(h.clean hd).1, hb (h.clean hd).2.1, (h.clean hd).2.2⟩,
    fun b ids h' => absurd h' (hw b ids)⟩

theorem status_idle {persisted : Bool} (h : (ms.status persisted).2.idle) :
    ms.idle ∧ (ms.status persisted).1.dirty = false := by
  unfold MarkState.status at h ⊢
  split_ifs at h ⊢ with h1 h2
  · exact ⟨h1.1, rfl⟩
  · have hi : ms.idle := h
    exact ⟨hi, by simpa [hi] using h1⟩

/-- A status keeps the state tidy. -/
theorem Tidy.status (h : ms.Tidy) (persisted : Bool) :
    (ms.status persisted).1.Tidy := by
  unfold MarkState.status
  split_ifs with h1
  · obtain ⟨hq, hb, -⟩ := idle_iff.1 h1.1
    refine ⟨fun _ => ⟨hq, hb, ?_⟩, h.sending⟩
    rintro f ⟨⟩
    exact fun _ hk => hk
  · exact h
  · exact h

theorem Later.status (ms : MarkState κ) (persisted : Bool) :
    Later ms (ms.status persisted).1 := by
  unfold MarkState.status
  split_ifs
  · exact .of_eq id rfl rfl rfl fun _ => rfl
  · exact .refl ms
  · exact .refl ms

section process

variable [DecidableEq κ] (P : Params κ) (self : NodeID) (ms : MarkState κ) (k : κ)
  (batch : List κ)

/-- What a worker does with a key: it tells the owners, and unless the key is a leaf it has passed
it to its worker, now or before, or is that worker and has visited it, now or before. -/
structure Processed (P : Params κ) (id : NodeID) (k : κ) (batch : List κ)
    (ms ms' : MarkState κ) : Prop where
  marked : ms.marked ⊆ ms'.marked
  keys : ∀ o, (ms.batchFor o).keys ⊆ (ms'.batchFor o).keys
  expand : ∀ o, (ms.batchFor o).expand ⊆ (ms'.batchFor o).expand
  owner : ∀ o ∈ P.placement.writeSet k, o ∈ P.acked →
    if o = id then P.eligible id k → k ∈ ms'.marked else k ∈ (ms'.batchFor o).keys
  counters : ms'.sent = ms.sent ∧ ms'.recv = ms.recv ∧ ms'.seqs = ms.seqs ∧
    ms'.seqSeen = ms.seqSeen ∧ ms'.missing = ms.missing ∧ ms'.dirty = ms.dirty
  waits : ms'.waits = ms.queue ++ batch
  busy : ms'.busy = true
  visited : ms'.visited = ms.visited ∨
    P.worker k = id ∧ ms'.visited = k :: ms.visited ∧ ms'.Fetching k
  forward : ms'.forward = ms.forward ∨
    ms'.forward = (P.worker k, k) :: ms.forward ∧ k ∈ (ms'.batchFor (P.worker k)).expand
  routed : P.leaf k ∨ P.worker k = id ∧ k ∈ ms'.visited ∨
    P.worker k ≠ id ∧ (P.worker k, k) ∈ ms'.forward

/-- What `process` does to a key. -/
theorem processed : Processed P self k batch ms (ms.process P self k batch) := by
  have hd := told_deliver P self ms k
  have ho := fun o ho ha => deliver_owner P self ms k (o := o) ho ha
  unfold MarkState.process
  generalize ms.deliver P self k = ms' at hd ho
  have he := hd.eq
  obtain ⟨m, o, rfl⟩ : ∃ m o, ms' = { ms with marked := m, out := o } := ⟨_, _, he⟩
  have hx := hd.expand
  simp only
  split_ifs with h1 h2 h3 h4
  · exact ⟨hd.marked, hd.keys, hx, ho, ⟨rfl, rfl, rfl, rfl, rfl, rfl⟩, rfl, rfl, .inl rfl, .inl rfl,
      .inl h1⟩
  · exact ⟨hd.marked, hd.keys, hx, ho, ⟨rfl, rfl, rfl, rfl, rfl, rfl⟩, rfl, rfl, .inl rfl, .inl rfl,
      .inr (.inr ⟨h2, h3⟩)⟩
  · -- the key joins the batch to its worker, whose `keys` stay as they are
    set ms' : MarkState κ := { ms with marked := m, out := o } with hms'
    have hb := fun o => batchFor_pushExpand ms' k (P.worker k) o
    have hk : ∀ o, ((ms'.pushExpand (P.worker k) k).batchFor o).keys = (ms'.batchFor o).keys := by
      intro o
      rw [hb]
      split_ifs with h
      · rw [h]
      · rfl
    have hxp : ∀ o, (ms'.batchFor o).expand ⊆
        ((ms'.pushExpand (P.worker k) k).batchFor o).expand := by
      intro o
      rw [hb]
      split_ifs with h
      · rw [h]
        exact List.subset_append_left _ _
      · exact fun _ h => h
    refine ⟨hd.marked, fun o => ?_, fun o => List.Subset.trans (hx o) (hxp o), fun o how hoa => ?_,
      ⟨rfl, rfl, rfl, rfl, rfl, rfl⟩, rfl, rfl, .inl rfl, .inr ⟨rfl, ?_⟩,
      .inr (.inr ⟨h2, List.mem_cons_self⟩)⟩
    · exact (hk o).symm ▸ hd.keys o
    · have := ho o how hoa
      split_ifs at this ⊢
      · exact this
      · exact (hk o).symm ▸ this
    · have := hb (P.worker k)
      rw [if_pos rfl] at this
      exact this ▸ List.mem_append_right _ List.mem_cons_self
  · exact ⟨hd.marked, hd.keys, hx, ho, ⟨rfl, rfl, rfl, rfl, rfl, rfl⟩, rfl, rfl, .inl rfl, .inl rfl,
      .inr (.inl ⟨not_not.1 h2, h4⟩)⟩
  · exact ⟨hd.marked, hd.keys, hx, ho, ⟨rfl, rfl, rfl, rfl, rfl, rfl⟩, rfl, rfl,
      .inr ⟨not_not.1 h2, rfl, ⟨batch, rfl⟩⟩, .inl rfl,
      .inr (.inl ⟨not_not.1 h2, List.mem_cons_self⟩)⟩

end process

theorem mem_pick_keys (h : k ∈ ob.keys) :
    k ∈ (pick ob).2.2.keys ∨ k ∈ (pick ob).1 := by
  unfold pick
  split_ifs
  · exact .inl h
  · rw [← List.take_append_drop maxKeys ob.keys] at h
    exact (List.mem_append.1 h).symm

theorem mem_pick_expand (h : k ∈ ob.expand) :
    k ∈ (pick ob).2.2.expand ∨ (pick ob).2.1 ∧ k ∈ (pick ob).1 := by
  unfold pick
  split_ifs
  · rw [← List.take_append_drop maxKeys ob.expand] at h
    exact (List.mem_append.1 h).symm.imp_right fun h => ⟨rfl, h⟩
  · exact .inl h

theorem flush_some {id : NodeID} {b : Batch κ} (h : ms.flush x id ids = (ms', some b)) :
    ∃ ob, ms.out.get id = some ob ∧
      b = ⟨x, id, ms.seqs id + 1, (pick ob).1, (pick ob).2.1⟩ ∧
      ms' = { ms with
        out := ms.out.set id (pick ob).2.2
        sent := ms.sent + 1
        seqs := Function.update ms.seqs id (ms.seqs id + 1)
        worker := .sending b (id :: ids) } := by
  unfold MarkState.flush at h
  split at h
  · simp at h
  · rename_i ob hg
    split_ifs at h
    · simp at h
    · cases h
      exact ⟨ob, hg, rfl, rfl⟩

section handleKeys

variable [DecidableEq κ] (P : Params κ) (self : NodeID) (ms : MarkState κ) (b : Batch κ)

theorem handleKeys_marked : ms.marked ⊆ (ms.handleKeys P self b).marked :=
  (told_foldl (fun ms k => told_markKey P self ms k) b.keys ms).marked

/-- A batch's eligible keys are marked. -/
theorem mem_handleKeys (hk : k ∈ b.keys) (he : P.eligible self k) :
    k ∈ (ms.handleKeys P self b).marked := by
  change k ∈ (b.keys.foldl (fun ms k => ms.markKey P self k) ms).marked
  generalize b.keys = l at hk ⊢
  induction l generalizing ms with
  | nil => simp at hk
  | cons j l ih =>
    rcases List.mem_cons.1 hk with rfl | hk
    · exact (told_foldl (fun ms k => told_markKey P self ms k) l _).marked
        (mem_markKey P self ms k he)
    · exact ih _ hk

theorem foldl_markKey (l : List κ) : l.foldl (fun ms k => ms.markKey P self k) ms =
    { ms with marked := (l.foldl (fun ms k => ms.markKey P self k) ms).marked } := by
  induction l generalizing ms with
  | nil => rfl
  | cons k l ih =>
    rw [List.foldl_cons, ih]
    unfold markKey
    split_ifs <;> rfl

theorem handleKeys_eq : ms.handleKeys P self b = { ms with
    marked := (ms.handleKeys P self b).marked
    seqSeen := Function.update ms.seqSeen b.src (some b.seq)
    recv := ms.recv + 1
    queue := if b.expand then ms.queue ++ b.keys else ms.queue
    dirty := true } := by
  unfold handleKeys
  rw [foldl_markKey]

end handleKeys

end MarkState

open MarkState

theorem Params.worker_mem {P : Params κ} (h : P.worker k ≠ 0) : P.worker k ∈ P.acked := by
  unfold Params.worker at h ⊢
  rcases hf : (P.placement.readOrder k).find? fun id => id ∈ P.acked with _ | id
  · simp [hf] at h
  · simpa using List.find?_some hf

/-- The sender takes part in the epoch. -/
def Sender.In (P : Params κ) : Sender → Prop
  | .node id => id ∈ P.acked
  | .coord => True

/-- The roots not handed out yet; of a cycle given up, any key. -/
def State.left (s : State κ) (k : κ) : Prop :=
  match s.coord with
  | .roots todo => k ∈ todo
  | .aborted => True
  | _ => False

@[simp] theorem State.set_mark_self (s : State κ) (x : Sender) (ms : MarkState κ) :
    (s.set x ms).mark x = ms := Function.update_self ..

@[simp] theorem State.set_net (s : State κ) (x : Sender) (ms : MarkState κ) :
    (s.set x ms).net = s.net := rfl

@[simp] theorem State.set_got (s : State κ) (x : Sender) (ms : MarkState κ) :
    (s.set x ms).got = s.got := rfl

theorem State.set_mark_of_ne (s : State κ) {x y : Sender} (ms : MarkState κ) (h : y ≠ x) :
    (s.set x ms).mark y = s.mark y := Function.update_of_ne h ..

theorem State.forall_set {s : State κ} {R : Sender → MarkState κ → Prop} (hx : R x ms)
    (h : ∀ y, y ≠ x → R y (s.mark y)) (y : Sender) :
    R y ((s.set x ms).mark y) := by
  rcases eq_or_ne y x with rfl | hy
  · rwa [State.set_mark_self]
  · rw [State.set_mark_of_ne s ms hy]
    exact h y hy

variable [DecidableEq κ]

/-- What each step of the mark does, with what it found. -/
inductive Turn (P : Params κ) (s : State κ) : State κ → Prop
  | same {s' : State κ} (hnet : s'.net = s.net) (hgot : s'.got = s.got)
      (h : ∀ x, Same (s.mark x) (s'.mark x) ∧ Later (s.mark x) (s'.mark x) ∧ (s'.mark x).Tidy)
      (hun : ∀ id, id ∉ P.acked → s'.mark (.node id) = s.mark (.node id))
      (hleft : ∀ k, s.left k → s'.left k) : Turn P s s'
  | process {id : NodeID} {k : κ} {batch : List κ} (hid : id ∈ P.acked)
      (hw : (s.mark (.node id)).worker = .processing (k :: batch)) :
      Turn P s (s.set (.node id) ((s.mark (.node id)).process P id k batch))
  | fetch {id : NodeID} {k : κ} {batch : List κ} {ok : Bool} (hid : id ∈ P.acked)
      (hw : (s.mark (.node id)).worker = .fetching k batch) :
      Turn P s (s.set (.node id) ((s.mark (.node id)).fetched P k batch ok))
  | send {x : Sender} {id : NodeID} {ids : List NodeID} {ms : MarkState κ} {b : Batch κ}
      (hx : x.In P) (hw : (s.mark x).worker = .flushing (id :: ids))
      (hf : (s.mark x).flush x id ids = (ms, some b)) :
      Turn P s { s.set x ms with net := b :: s.net }
  | receive {b : Batch κ} (hb : b ∈ s.net) (ha : b.dst ∈ P.acked)
      (hs : (s.mark (.node b.dst)).seen b = false) :
      Turn P s { s.set (.node b.dst) ((s.mark (.node b.dst)).handleKeys P b.dst b) with
        got := b :: s.got }
  | root {k : κ} {todo : List κ} (hc : s.coord = .roots (k :: todo)) (ha : P.node ∈ P.acked) :
      Turn P s ((s.set (.node P.node) { s.mark (.node P.node) with
        queue := (s.mark (.node P.node)).queue ++ [k]
        dirty := true }).goto (.roots todo))
  | rootOut {k : κ} {todo : List κ} (hc : s.coord = .roots (k :: todo)) :
      Turn P s ((s.set .coord ((s.mark .coord).pushExpand (P.worker k) k)).goto (.roots todo))

section step

variable {P : Params κ} {s s' : State κ} (ht : ∀ x, (s.mark x).Tidy)

include ht

/-- A step of one node that leaves marks and batches alone. -/
theorem Turn.of_set (hx : x.In P) (h : Same (s.mark x) ms) (hl : Later (s.mark x) ms)
    (htidy : ms.Tidy) (hleft : ∀ k, s.left k → (s.goto c).left k) :
    Turn P s ((s.set x ms).goto c) := by
  refine .same rfl rfl (fun y => ?_) (fun id hid => ?_) hleft
  · exact State.forall_set (s := s)
      (R := fun y ms => Same (s.mark y) ms ∧ Later (s.mark y) ms ∧ ms.Tidy) ⟨h, hl, htidy⟩
      (fun y _ => ⟨.refl _, .refl _, ht y⟩) y
  · refine State.set_mark_of_ne s ms ?_
    rintro rfl
    exact hid hx

theorem Turn.of_goto (hleft : ∀ k, s.left k → (s.goto c).left k) :
    Turn P s (s.goto c) :=
  .same rfl rfl (fun x => ⟨.refl _, .refl _, ht x⟩) (fun _ _ => rfl) hleft

/-- A worker that moves on without keys. -/
theorem Turn.of_worker (hx : x.In P) (hm : (s.mark x).hand = []) (hf : ∀ k, ¬ (s.mark x).Fetching k)
    (hw : ∀ b ids, w ≠ .sending b ids)
    (hb : ({ s.mark x with worker := w } : MarkState κ).busy = false)
    (hleft : ∀ k, s.left k → (s.goto c).left k) :
    Turn P s ((s.set x { s.mark x with worker := w }).goto c) := by
  refine .of_set ht hx (.goto hm hf) (.of_eq (fun hi => ?_) rfl rfl rfl id)
    ((ht x).goto hw fun _ => hb) hleft
  obtain ⟨hq, -, ho⟩ := idle_iff.1 hi
  exact idle_iff.2 ⟨hq, hb, ho⟩

/-- A flush that sends nothing. -/
theorem Turn.of_flush {id : NodeID} (hx : x.In P) (hw : (s.mark x).worker = .flushing (id :: ids))
    (hf : (s.mark x).flush x id ids = (ms, none)) : Turn P s (s.set x ms) := by
  unfold MarkState.flush at hf
  split at hf
  · cases hf
    exact .of_worker ht hx (by simp [hand, hw]) (by simp [Fetching, hw]) (by simp) rfl fun _ h => h
  · rename_i ob hg
    split_ifs at hf with hp
    · cases hf
      refine .of_set ht hx (.drop hw hg hp) (.of_not_idle le_rfl le_rfl fun hi => ?_)
        ⟨fun hd => ⟨((ht x).clean hd).1, rfl, ((ht x).clean hd).2.2⟩, by simp⟩ fun _ h => h
      rw [get_of_entries_nil (idle_iff.1 hi).2.2] at hg
      simp at hg
    · simp at hf

/-- A step is one of the turns. -/
theorem turn_of_step {a : Action κ}
    (hun : ∀ id, id ∉ P.acked → (s.mark (.node id)).worker = .waiting)
    (hroots : ∀ todo, s.coord = .roots todo → (s.mark .coord).worker = .waiting)
    (htodo : ∀ p, s.coord = .polling p → p.todo ⊆ P.acked) (h : step P s a = some s') :
    Turn P s s' := by
  have hin : ∀ x, (s.mark x).worker ≠ .waiting → x.In P := by
    rintro (id | -) hw
    · exact not_not.1 fun hid => hw (hun id hid)
    · trivial
  cases a with
  | take id =>
    simp only [step] at h
    split at h
    · rename_i hw
      split_ifs at h with hid hq
      · cases h
        exact .of_worker ht hid (by simp [hand, hw]) (by simp [Fetching, hw]) (by simp) rfl
          fun _ h => h
      · cases h
        refine .of_set ht hid (.take hw takeMax) (.of_not_idle le_rfl le_rfl fun hi => ?_)
          ⟨fun hd => absurd ((ht _).clean hd).1 hq, by simp⟩ fun _ h => h
        exact hq (idle_iff.1 hi).1
    · simp at h
  | process id =>
    simp only [step] at h
    split at h
    · rename_i hw
      cases h
      exact .process (hin (.node id) (by simp [hw])) hw
    · simp at h
  | fetch id ok =>
    simp only [step] at h
    split at h
    · rename_i hw
      cases h
      exact .fetch (hin (.node id) (by simp [hw])) hw
    · simp at h
  | rest id =>
    simp only [step] at h
    split at h
    · rename_i hw
      cases h
      exact .of_worker ht (hin _ (by simp [hw])) (by simp [hand, hw]) (by simp [Fetching, hw])
        (by simp) rfl fun _ h => h
    · simp at h
  | flushOut x order =>
    simp only [step] at h
    split at h
    · rename_i hw
      split_ifs at h
      cases h
      exact .of_worker ht (hin _ (by simp [hw])) (by simp [hand, hw]) (by simp [Fetching, hw])
        (by simp) rfl fun _ h => h
    · simp at h
  | flush x =>
    simp only [step] at h
    split at h
    · rename_i hw
      cases h
      exact .of_worker ht (hin _ (by simp [hw])) (by simp [hand, hw]) (by simp [Fetching, hw])
        (by simp) rfl fun _ h => h
    · rename_i id ids hw
      cases h
      have hx := hin x (by simp [hw])
      rcases hf : (s.mark x).flush x id ids with ⟨ms, _ | b⟩
      · exact .of_flush ht hx hw hf
      · exact .send hx hw hf
    · simp at h
  | reply x o =>
    simp only [step] at h
    split at h
    · rename_i b ids hw
      have hx := hin x (by simp [hw])
      have hm : (s.mark x).hand = [] := by simp [hand, hw]
      have hf : ∀ k, ¬ (s.mark x).Fetching k := by simp [Fetching, hw]
      cases o with
      | acked =>
        simp only at h
        split_ifs at h
        cases h
        exact .of_worker ht hx hm hf (by simp) rfl fun _ h => h
      | refused =>
        cases h
        refine .of_set ht hx (.refused hw _) (.of_not_idle le_rfl le_rfl fun hi => ?_)
          ⟨fun hd => ⟨((ht x).clean hd).1, rfl, ((ht x).clean hd).2.2⟩, by simp⟩ fun _ h => h
        exact (ht x).sending b ids hw (idle_iff.1 hi).2.2
      | gaveUp =>
        cases h
        exact .of_worker ht hx hm hf (by simp) rfl fun _ h => h
    · simp at h
  | receive b =>
    simp only [step] at h
    split_ifs at h with hb hs
    · cases h
      exact .of_goto ht fun _ h => h
    · cases h
      simp only [not_or, not_not] at hb hs
      exact .receive hb.1 hb.2 (by simpa using hs.2)
  | root =>
    simp only [step] at h
    split at h
    · rename_i k todo hc
      split_ifs at h with hk ha
      · cases h
        exact .root hc ha
      · exact absurd (hk ▸ Params.worker_mem (hk ▸ P.node_ne_zero)) ha
      · cases h
        exact .rootOut hc
    · simp at h
  | send =>
    simp only [step] at h
    split at h
    · rename_i hc
      cases h
      have hw := hroots _ hc
      exact .of_worker ht trivial (by simp [hand, hw]) (by simp [Fetching, hw]) (by simp) rfl
        fun k h => by simp [State.left, hc] at h
    · simp at h
  | poll =>
    simp only [step] at h
    split at h
    · rename_i hc
      split at h
      · cases h
        exact .of_goto ht fun k h => by simp [State.left, hc] at h
      · simp at h
    · simp at h
  | status persisted =>
    simp only [step] at h
    split at h
    · rename_i p hc
      split at h
      · simp at h
      · rename_i id todo hp
        cases h
        exact .of_set ht (htodo p hc (by simp [hp])) (.status _ _) (.status _ _)
          ((ht _).status _) fun k h => by simp [State.left, hc] at h
    · simp at h
  | settle =>
    simp only [step] at h
    split at h
    · rename_i p hc
      split_ifs at h
      all_goals
        cases h
        exact .of_goto ht fun k h => by simp [State.left, hc] at h
    · simp at h
  | freeze id persisted =>
    simp only [step] at h
    split at h
    · rename_i p hc
      split_ifs at h with hid
      cases h
      have hs := Same.status (s.mark (.node id)) persisted
      have hl := Later.status (s.mark (.node id)) persisted
      have ht' := (ht (.node id)).status persisted
      exact .of_set ht hid.1 ⟨hs.1, hs.2, hs.3, hs.4, hs.5, hs.6, hs.7, hs.8, hs.9, hs.10, hs.11⟩
        ⟨hl.1, hl.2, hl.3⟩ ⟨ht'.1, ht'.2⟩ fun k h => by simp [State.left, hc] at h
    · simp at h
  | abort =>
    simp only [step] at h
    cases h
    exact .of_goto ht fun _ _ => trivial

end step

end Dstore.Mark

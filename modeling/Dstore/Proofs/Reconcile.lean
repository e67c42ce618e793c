import Dstore.Proofs.Index
import Dstore.Proofs.Pins
import Dstore.Proofs.Placements

/-!
# The packs, marks and views of a reconciling node

A sealed pack holds what it held when it was sealed until a sweep takes it away, so what a mark
found eligible was in the pack then. Of the views the register has held, those that carry a
placement of one id carry the same placement.
-/

namespace Dstore.Cluster.Reconcile

variable {κ : Type} [DecidableEq κ] {P : Params κ} {s s' : State κ} {act : Action κ}
  {n n' : Pins.State κ} {v u u' : View} {c : Change} {k : κ} {id : ℕ}

/-- What each step does, with what it found. -/
inductive Stepped (P : Params κ) (s : State κ) (act : Action κ) : State κ → Prop
  | node {a : Pins.Action κ} {n : Pins.State κ} (ha : alone s a)
      (h : Pins.step P.toParams s.node a = some n) : Stepped P s act (s.afterNode a n)
  | roots {epoch : ℕ} {u : View} {n : Pins.State κ} (hu : u ∈ s.past)
      (h : Pins.step P.toParams s.node (.roots epoch (inWriteSet P u)) = some n) :
      Stepped P s act { s with node := n }
  | roll : Stepped P s act s.roll
  | place {i : ℕ} : Stepped P s act { s with cur := Function.update s.cur i (some s.view) }
  | compact {i : ℕ} {ids : List ℕ} {cur : View} {n : Pins.State κ} (ha : act = .compact i ids)
      (hc : s.cur i = some cur)
      (h : Pins.step P.toParams s.node
        (.compact i ids s.active (inWriteSet P cur) fun id => s.settled id cur) = some n) :
      Stepped P s act { s with node := n, log := (s.garbage P i ids cur).map .dead ++ s.log }
  | change {c : Change} {u : View} (h : casView c s.reg = .ok u) :
      Stepped P s act { s with reg := u, past := u :: s.past }
  | adopt {v : View} (hv : v ∈ s.past) :
      Stepped P s act { s with view := v, log := .adopt v :: s.log }
  | onEpoch {v : View} {o : SealOut} (ha : act = .onEpoch v o) (hv : .adopt v ∈ s.log) :
      Stepped P s act (s.adoptTransition P v o)
  | committed : Stepped P s act { s with xfer := none, saved := [] }
  | wiped {o : SealOut} {stamps : ℕ → Option Stamp}
      (h : ∀ id st, stamps id = some st → st.replicated = true → s.stamps id = some st) :
      Stepped P s act { (s.sealActive o).1 with stamps := stamps }
  | forward {t : NodeID} {keys : List κ} {r : Reply κ} :
      Stepped P s act { s with log := (forwardTo keys r).1.map (.confirm t) ++ s.log }
  | look : Stepped P s act { s with pass := .looked s.view }
  | idle : Stepped P s act { s with pass := .idle }
  | resting {v : View} (hv : s.pass = .looked v ∨ s.pass = .rereading v) :
      Stepped P s act { s with pass := .resting v }
  | adopting {v : View} (hv : s.pass = .looked v) : Stepped P s act { s with pass := .adopting v }
  | adoptPass {v : View} {o : SealOut} (ha : act = .adoptPass o) (hv : s.pass = .adopting v) :
      Stepped P s act { s.adoptTransition P v o with pass := .rereading v }
  | walk {v : View} {p : Pending} {x : Xfer κ} (hp : v.pending = some p) (hx : s.xfer = some x)
      (hv : x.isFor p ∨ s.pass = .rereading v ∧ ∃ listed, act = .reread listed) :
      Stepped P s act { s with pass := .walking v x s.node.segments true }
  | ending {v : View} {x : Xfer κ} {segs : List ℕ} {allDone : Bool}
      (hp : s.pass = .walking v x segs allDone) (hn : x.nextPack segs = none) :
      Stepped P s act { s with pass := .ending v x allDone }
  | visit {v : View} {x : Xfer κ} {segs rest : List ℕ} {allDone : Bool} {id : ℕ}
      (ha : act = .visit true) (hp : s.pass = .walking v x segs allDone)
      (hn : x.nextPack segs = some (id, rest)) (hid : id ∈ s.node.segments) :
      Stepped P s act { s with
        pass := .visiting (s.visit P id v v.pending).1 (some (v, x, rest))
        log := (s.visit P id v v.pending).2 ++ s.log }
  | unread {v : View} {x : Xfer κ} {segs rest : List ℕ} {allDone scanned : Bool} {id : ℕ}
      (ha : act = .visit scanned) (hp : s.pass = .walking v x segs allDone)
      (hn : x.nextPack segs = some (id, rest)) (hid : ¬ (scanned = true ∧ id ∈ s.node.segments)) :
      Stepped P s act (s.donePack x id)
  | audit {v : View} {id : ℕ} (ha : act = .audit id true) (hp : s.pass = .resting v)
      (hid : id ∈ s.node.segments) :
      Stepped P s act { s with
        pass := .visiting (s.visit P id v none).1 none
        log := (s.visit P id v none).2 ++ s.log }
  | offer {c : Visit κ} {w : Option (View × Xfer κ × List ℕ)} {t : NodeID} {batch : List κ}
      {r : Reply κ} (hp : s.pass = .visiting c w) (hb : ∀ k ∈ batch, (t, k) ∈ c.todo) :
      Stepped P s act { s with
        pass := .visiting { c with
          todo := c.todo.filter fun e => !(e.1 = t ∧ e.2 ∈ batch)
          replicated := c.replicated && (forwardTo batch r).2.isEmpty } w
        log := (forwardTo batch r).1.map (.confirm t) ++ batch.map (.offer c.forID t) ++ s.log }
  | audited {c : Visit κ} (hp : s.pass = .visiting c none) (ht : c.todo = []) :
      Stepped P s act { s.stampPack c with pass := .idle }
  | deferred {c : Visit κ} {v : View} {x : Xfer κ} {rest : List ℕ}
      (hp : s.pass = .visiting c (some (v, x, rest))) :
      Stepped P s act { s.saveXfer { x with deferred := c.id :: x.deferred.filter (· ≠ c.id) } with
        pass := .walking v { x with deferred := c.id :: x.deferred.filter (· ≠ c.id) } rest false }
  | visited {c : Visit κ} {v : View} {x : Xfer κ} {rest : List ℕ}
      (hp : s.pass = .visiting c (some (v, x, rest))) (ht : c.todo = [])
      (hd : c.deferred = false) : Stepped P s act ((s.stampPack c).donePack x c.id)
  | primary {v : View} {x : Xfer κ} {allDone : Bool} (hp : s.pass = .ending v x allDone) :
      Stepped P s act { s.saveXfer { x with primary := true } with pass := .idle }
  | cover {v : View} {x : Xfer κ} {o : SealOut} (ha : act = .close o)
      (hp : s.pass = .ending v x true) (hc : x.cover = false) :
      Stepped P s act { (s.sealActive o).1.saveXfer { x with
        primary := true, cover := true, sealID2 := (s.sealActive o).2 } with pass := .idle }
  | finished {v : View} {p : Pending} {x : Xfer κ} (hp : s.pass = .ending v x true)
      (hc : x.cover = true) (hv : v.pending = some p) :
      Stepped P s act { s.saveXfer { x with primary := true, finished := true } with
        pass := .reporting p.id { x with primary := true, finished := true } }
  | report {id : ℕ} {x : Xfer κ} {u : View} (hp : s.pass = .reporting id x)
      (h : casView (.done P.self id) s.reg = .ok u) :
      Stepped P s act { s with pass := .idle, reg := u, past := u :: s.past }

theorem walk_stepped {p : Pending} {x : Xfer κ} (hv : s.pass = .looked v ∨ s.pass = .rereading v)
    (hp : v.pending = some p) (hx : s.xfer = some x)
    (hid : x.isFor p ∨ s.pass = .rereading v ∧ ∃ listed, act = .reread listed) (listed : Bool) :
    Stepped P s act (s.walk P v p x listed) := by
  unfold State.walk
  split_ifs
  · exact .resting hv
  · exact .walk hp hx hid
  · exact .idle

/-- A step is one of those listed. -/
theorem step_stepped (h : step P s act = some s') : Stepped P s act s' := by
  cases act with
  | node a =>
    simp only [step] at h
    split_ifs at h with ha
    obtain ⟨n, hn, rfl⟩ := Option.map_eq_some_iff.1 h
    exact .node ha hn
  | roots epoch u =>
    simp only [step] at h
    split_ifs at h with hu
    obtain ⟨n, hn, rfl⟩ := Option.map_eq_some_iff.1 h
    exact .roots hu hn
  | roll =>
    cases h
    exact .roll
  | place i =>
    simp only [step] at h
    split at h <;> cases h
    exact .place
  | compact i ids =>
    simp only [step] at h
    split at h
    · cases h
    · obtain ⟨n, hn, rfl⟩ := Option.map_eq_some_iff.1 h
      exact .compact rfl ‹_› hn
  | change c =>
    simp only [step] at h
    split_ifs at h
    split at h <;> cases h
    exact .change ‹_›
  | adopt v =>
    simp only [step] at h
    split_ifs at h with hv
    cases h
    exact .adopt hv.1
  | onEpoch v o =>
    simp only [step] at h
    split_ifs at h with hv
    cases h
    exact .onEpoch rfl hv
  | committed v =>
    simp only [step] at h
    split_ifs at h
    cases h
    exact .committed
  | wiped o =>
    cases h
    refine .wiped fun id st h hr => ?_
    rw [show s.stamps id = (s.sealActive o).1.stamps id by unfold State.sealActive; split <;> rfl]
    split_ifs at h
    · obtain ⟨st', -, rfl⟩ := Option.map_eq_some_iff.1 h
      cases hr
    · exact h
  | forward t keys r =>
    cases h
    exact .forward
  | look =>
    simp only [step] at h
    split at h <;> cases h
    exact .look
  | enter listed =>
    simp only [step] at h
    split at h
    · rename_i v hpass
      split_ifs at h
      · cases h
        exact .idle
      · split at h
        · cases h
          exact .resting (.inl hpass)
        · rename_i p hp
          split_ifs at h
          · cases h
            exact .resting (.inl hpass)
          · split at h <;> cases h
            · exact .adopting hpass
            · rename_i x hx
              obtain ⟨hx, hfor⟩ := Option.filter_eq_some_iff.1 hx
              exact walk_stepped (.inl hpass) hp hx (.inl hfor) listed
    · cases h
  | adoptPass o =>
    simp only [step] at h
    split at h <;> cases h
    exact .adoptPass rfl ‹_›
  | reread listed =>
    simp only [step] at h
    split at h
    · rename_i v hpass
      split at h <;> cases h
      · exact walk_stepped (.inr hpass) ‹_› ‹_› (.inr ⟨hpass, listed, rfl⟩) listed
      · exact .resting (.inr hpass)
    · cases h
  | visit scanned =>
    simp only [step] at h
    split at h
    · split at h
      · cases h
        exact .ending ‹_› ‹_›
      · split_ifs at h with hid
        · cases h
          exact .visit (by rw [hid.1]) ‹_› ‹_› hid.2
        · cases h
          exact .unread rfl ‹_› ‹_› hid
    · cases h
  | audit id scanned =>
    simp only [step] at h
    split at h
    · split_ifs at h with hid hscan
      · cases h
        exact .audit (by rw [hscan]) ‹_› hid
      · cases h
        exact .idle
    · cases h
  | rest =>
    simp only [step] at h
    split at h <;> cases h
    exact .idle
  | offer t r =>
    simp only [step] at h
    split at h
    · split_ifs at h
      cases h
      refine .offer ‹_› fun k hk => ?_
      obtain ⟨e, he, rfl⟩ := List.mem_map.1 (List.mem_of_mem_take hk)
      obtain ⟨he, ht⟩ := List.mem_filter.1 he
      rw [decide_eq_true_eq] at ht
      rwa [← ht]
    · cases h
  | finish =>
    simp only [step] at h
    split at h
    · split_ifs at h with ht
      cases h
      exact .audited ‹_› ht
    · split_ifs at h with ht hd
      · cases h
        exact .deferred ‹_›
      · cases h
        exact .visited ‹_› ht (by simpa using hd)
    · cases h
  | close o =>
    simp only [step] at h
    split at h
    · rename_i v x allDone hp
      split_ifs at h with hall hc
      · cases h
        exact .primary hp
      · cases h
        obtain rfl : allDone = true := by simpa using hall
        exact .cover rfl hp (by simpa using hc)
      · obtain rfl : allDone = true := by simpa using hall
        split at h <;> cases h
        exact .finished hp (by simpa using hc) ‹_›
    · cases h
  | report =>
    simp only [step] at h
    split at h
    · split at h <;> cases h
      · exact .idle
      · exact .report ‹_› ‹_›
    · cases h

/-! ## The store -/

/-- What a mark in memory or a sweep of the node takes to be eligible. -/
def Finds (n : Pins.State κ) (elig : κ → Option ℕ) : Prop :=
  (∃ m, n.mark = some m ∧ m.eligible = elig) ∨
    ∃ i sw si, n.sweeps i = some sw ∧ sw.input = some si ∧ si.eligible = elig

/-- The map is a scan of the packs as they are. -/
def Scans (n : Pins.State κ) (elig : κ → Option ℕ) : Prop :=
  ∃ below fails, elig = scanEligible below fails n.packs

/-- The steps of the store that stand alone seal no pack and take none away. -/
structure Stored (active : ℕ) (n n' : Pins.State κ) : Prop where
  segments : n'.segments = n.segments
  records : ∃ fresh, n'.records = n.records ++ fresh ∧ ∀ e ∈ fresh, e.2 = active
  finds : ∀ elig, Finds n' elig → Finds n elig ∨ Scans n elig

theorem handleMark_scans {msg : Pins.MarkMsg κ} {fails : ℕ → Option ℕ} {m : Pins.Mark κ}
    (h : n.handleMark msg fails = some m) : Scans n m.eligible := by
  unfold Pins.State.handleMark at h
  split at h
  · split_ifs at h
    cases h
    exact ⟨_, _, rfl⟩
  · cases h

theorem sweepInputFor_finds {epoch : ℕ} {fails : ℕ → Option ℕ} {si : Pins.SweepInput κ}
    (h : n.sweepInputFor epoch fails = some si) : Finds n si.eligible ∨ Scans n si.eligible := by
  simp only [Pins.State.sweepInputFor] at h
  obtain ⟨m, hm, rfl⟩ := Option.map_eq_some_iff.1 h
  have hload : n.loadMark epoch fails = some m → Scans n m.eligible := by
    intro h
    obtain ⟨m', -, rfl⟩ := Option.map_eq_some_iff.1 h
    exact ⟨_, _, rfl⟩
  split at hm
  · rename_i hmark
    split_ifs at hm
    · cases hm
      exact .inl (.inl ⟨_, hmark, rfl⟩)
    · exact .inr (hload hm)
  · exact .inr (hload hm)

theorem finds_step {a : Pins.Action κ} (h : Pins.step P.toParams n a = some n')
    {elig : κ → Option ℕ} (hf : Finds n' elig) : Finds n elig ∨ Scans n elig := by
  rcases hf with ⟨m, hm, rfl⟩ | ⟨i, sw, si, hsw, hsi, rfl⟩
  · rcases Pins.mark_step h hm with ⟨m', hm', -, heq⟩ | ⟨msg, fails, hmsg⟩
    · exact .inl (.inl ⟨m', hm', heq⟩)
    · exact .inr (handleMark_scans hmsg)
  · rcases Pins.input_step h hsw hsi with ⟨sw', hsw', hsi'⟩ | ⟨e, fails, hsi'⟩
    · exact .inl (.inr ⟨i, sw', si, hsw', hsi', rfl⟩)
    · exact sweepInputFor_finds hsi'

/-- What the node does by itself adds to its store. -/
theorem alone_stored {a : Pins.Action κ} (ha : alone s a)
    (h : Pins.step P.toParams s.node a = some n) : Stored s.active s.node n := by
  have hfinds : ∀ elig, Finds n elig → Finds s.node elig ∨ Scans s.node elig :=
    fun _ => finds_step h
  have hsame : n.segments = s.node.segments ∧ n.records = s.node.records →
      Stored s.active s.node n := fun hsame =>
    ⟨hsame.1, ⟨[], by simp [hsame.2], by simp⟩, hfinds⟩
  cases a with
  | put keys pack =>
    obtain rfl : pack = s.active := by simpa [alone] using ha
    simp only [Pins.step] at h
    split_ifs at h
    cases h
    refine ⟨rfl, ⟨_, rfl, fun e he => ?_⟩, hfinds⟩
    obtain ⟨k, -, rfl⟩ := List.mem_map.1 he
    rfl
  | sealSegment id => simp [alone] at ha
  | compact i ids pack cur settled => simp [alone] at ha
  | roots epoch owned => simp [alone] at ha
  | _ =>
    refine hsame ?_
    simp only [Pins.step, Pins.State.put, Option.map_eq_some_iff] at h
    grind

theorem roots_stored {epoch active : ℕ} {owned : κ → Bool}
    (h : Pins.step P.toParams n (.roots epoch owned) = some n') : Stored active n n' := by
  have hfinds : ∀ elig, Finds n' elig → Finds n elig ∨ Scans n elig := fun _ => finds_step h
  simp only [Pins.step] at h
  split_ifs at h
  cases h
  exact ⟨rfl, ⟨[], by simp, by simp⟩, hfinds⟩

omit [DecidableEq κ] in
theorem sealActive_cases (s : State κ) (o : SealOut) :
    (s.sealActive o).1 = s.roll ∨ (s.sealActive o).1 = s := by
  unfold State.sealActive
  split
  · exact .inl rfl
  · exact .inr rfl

omit [DecidableEq κ] in
/-- An adoption keeps the pass, finds one on disk, or begins one. -/
theorem adoptTransition_cases (P : Params κ) (s : State κ) (v : View) (o : SealOut) :
    s.adoptTransition P v o = s ∨
    (∃ x ∈ s.saved, s.adoptTransition P v o = { s with xfer := some x }) ∨
    ∃ (m : State κ) (top : ℕ) (x : Xfer κ), s.sealActive o = (m, top) ∧ x.sealID = top ∧
      x.sealID2 = 0 ∧ x.done = [] ∧ x.cover = false ∧ x.held = m.node.records ∧
      x.born = m.log.length ∧
      s.adoptTransition P v o =
        { m with xfer := some x, saved := Transition.putXfer Xfer.toXfer x m.saved } := by
  unfold State.adoptTransition
  split
  · exact .inl rfl
  · split
    · exact .inl rfl
    · split
      · rename_i x hx
        exact .inr (.inl ⟨x, List.mem_of_find?_eq_some hx, rfl⟩)
      · exact .inr (.inr ⟨_, _, _, rfl, rfl, rfl, rfl, rfl, rfl, rfl, rfl⟩)

/-- What a compaction keeps. -/
theorem compact_cases {i : ℕ} {ids : List ℕ} {pack : ℕ} {cur : κ → Bool} {settled : ℕ → Bool}
    (h : Pins.step P.toParams n (.compact i ids pack cur settled) = some n') :
    ∃ si, n.sweeps i = some (.compacting si) ∧ n'.segments = n.segments.filter (· ∉ ids) ∧
      (∀ e ∈ n.records, e.2 ∉ ids → e ∈ n'.records) ∧
      (∀ e ∈ n.records, n.live P.toParams si cur settled e.1 = true → e.2 ∈ ids →
        (e.1, pack) ∈ n'.records) ∧
      ∀ e ∈ n'.records, e.2 = pack ∨ e ∈ n.records ∧ e.2 ∉ ids := by
  simp only [Pins.step] at h
  split at h
  · rename_i si hsi
    split_ifs at h
    cases h
    refine ⟨si, hsi, rfl, fun e he hid => ?_, fun e he hlive hid => ?_, fun e he => ?_⟩
    · exact List.mem_filterMap.2 ⟨e, he, if_pos hid⟩
    · exact List.mem_filterMap.2 ⟨e, he, by simp [hid, hlive]⟩
    · obtain ⟨e', he', heq⟩ := List.mem_filterMap.1 he
      split_ifs at heq with h1 h2
      · exact .inl (congrArg Prod.snd (Option.some.inj heq)).symm
      · cases heq
        exact .inr ⟨he', h1⟩
  · cases h

/-- Segments, records and contents agree. -/
structure StoreOk (s : State κ) : Prop where
  sorted : s.node.segments.Pairwise (· < ·)
  below : ∀ id ∈ s.node.segments, id < s.active
  records : ∀ e ∈ s.node.records, e.2 = s.active ∨ e.2 ∈ s.node.segments
  sealed : ∀ id ks, s.content id = some ks → id < s.active
  content : ∀ e ∈ s.node.records, e.2 ∈ s.node.segments →
    ∃ ks, s.content e.2 = some ks ∧ e.1 ∈ ks
  whole : ∀ id ∈ s.node.segments, ∀ ks, s.content id = some ks → ∀ k ∈ ks, (k, id) ∈ s.node.records
  finds : ∀ elig, Finds s.node elig → ∀ k id, elig k = some id →
    ∃ ks, s.content id = some ks ∧ k ∈ ks

omit [DecidableEq κ] in
theorem storeOk_start (v : View) (now : ℤ) : StoreOk (start v now : State κ) where
  sorted := .nil
  below := by simp [start, Pins.start]
  records := by simp [start, Pins.start]
  sealed := by simp [start]
  content := by simp [start, Pins.start]
  whole := by simp [start, Pins.start]
  finds := by simp [start, Pins.start, Finds]

omit [DecidableEq κ] in
theorem StoreOk.frame (h : StoreOk s) (hn : s'.node = s.node) (ha : s'.active = s.active)
    (hc : s'.content = s.content) : StoreOk s' where
  sorted := hn ▸ h.sorted
  below := by rw [hn, ha]; exact h.below
  records := by rw [hn, ha]; exact h.records
  sealed := by rw [hc, ha]; exact h.sealed
  content := by rw [hn, hc]; exact h.content
  whole := by rw [hn, hc]; exact h.whole
  finds := by rw [hn, hc]; exact h.finds

theorem StoreOk.scans (h : StoreOk s) {elig : κ → Option ℕ} (he : Scans s.node elig)
    (hk : elig k = some id) : ∃ ks, s.content id = some ks ∧ k ∈ ks := by
  obtain ⟨below, fails, rfl⟩ := he
  obtain ⟨seg, hseg, rfl, -, hmem⟩ := mem_of_scanEligible hk
  obtain ⟨id, hid, rfl⟩ := List.mem_map.1 hseg
  obtain ⟨e, he, rfl⟩ := List.mem_map.1 hmem
  obtain ⟨hrec, heq⟩ := List.mem_filter.1 he
  obtain rfl : e.2 = id := of_decide_eq_true heq
  exact h.content e hrec hid

theorem StoreOk.stored (h : StoreOk s) (hs : Stored s.active s.node n) :
    StoreOk { s with node := n } := by
  obtain ⟨fresh, hrec, hfresh⟩ := hs.records
  have hlt : ∀ id ∈ n.segments, id < s.active := hs.segments ▸ h.below
  constructor
  · exact hs.segments ▸ h.sorted
  · exact hlt
  · intro e he
    rw [hrec, List.mem_append] at he
    rcases he with he | he
    · exact hs.segments ▸ h.records e he
    · exact .inl (hfresh e he)
  · exact h.sealed
  · intro e he hid
    rw [hrec, List.mem_append] at he
    rcases he with he | he
    · exact h.content e he (hs.segments ▸ hid)
    · have := hlt _ hid
      rw [hfresh e he] at this
      omega
  · intro id hid ks hks k hk
    rw [hrec]
    exact List.mem_append_left _ (h.whole id (hs.segments ▸ hid) ks hks k hk)
  · intro elig he k id hk
    rcases hs.finds elig he with he | he
    · exact h.finds elig he k id hk
    · exact h.scans he hk

omit [DecidableEq κ] in
theorem StoreOk.roll (h : StoreOk s) : StoreOk s.roll := by
  have hold : ∀ id, id < s.active → s.roll.content id = s.content id :=
    fun id hid => Function.update_of_ne (by omega) ..
  have hnew : s.roll.content s.active =
      some ((s.node.records.filter fun e => e.2 = s.active).map Prod.fst) :=
    Function.update_self ..
  constructor
  · exact List.pairwise_append.2 ⟨h.sorted, by simp, by simpa using h.below⟩
  · intro id hid
    rcases List.mem_append.1 hid with hid | hid
    · exact Nat.lt_succ_of_lt (h.below id hid)
    · exact Nat.lt_succ_of_le (List.mem_singleton.1 hid).le
  · intro e he
    refine .inr (List.mem_append.2 ?_)
    exact (h.records e he).symm.imp_right List.mem_singleton.2
  · intro id ks hks
    by_cases hid : id = s.active
    · exact hid ▸ Nat.lt_succ_self _
    · rw [show s.roll.content id = s.content id from Function.update_of_ne hid ..] at hks
      exact Nat.lt_succ_of_lt (h.sealed id ks hks)
  · intro e he hid
    rcases List.mem_append.1 hid with hid | hid
    · rw [hold _ (h.below _ hid)]
      exact h.content e he hid
    · rw [List.mem_singleton.1 hid]
      refine ⟨_, hnew, List.mem_map.2 ⟨e, List.mem_filter.2 ⟨he, ?_⟩, rfl⟩⟩
      simpa using hid
  · intro id hid ks hks k hk
    rcases List.mem_append.1 hid with hid | hid
    · rw [hold _ (h.below _ hid)] at hks
      exact h.whole id hid ks hks k hk
    · obtain rfl := List.mem_singleton.1 hid
      obtain rfl := Option.some.inj (hnew.symm.trans hks)
      obtain ⟨e, he, rfl⟩ := List.mem_map.1 hk
      obtain ⟨he, hid⟩ := List.mem_filter.1 he
      rw [decide_eq_true_eq] at hid
      rwa [← hid]
  · intro elig he k id hk
    obtain ⟨ks, hks, hmem⟩ := h.finds elig he k id hk
    exact ⟨ks, (hold id (h.sealed id ks hks)).trans hks, hmem⟩

/-- A segment is compacted into the active one. -/
theorem StoreOk.compact (h : StoreOk s) {i : ℕ} {ids : List ℕ} {cur : κ → Bool}
    {settled : ℕ → Bool}
    (hs : Pins.step P.toParams s.node (.compact i ids s.active cur settled) = some n) :
    StoreOk { s with node := n } := by
  obtain ⟨si, -, hseg, hstay, -, hrec⟩ := compact_cases hs
  have hmem : ∀ {id}, id ∈ n.segments ↔ id ∈ s.node.segments ∧ id ∉ ids := by
    simp [hseg]
  constructor
  · show n.segments.Pairwise (· < ·)
    rw [hseg]
    exact h.sorted.filter _
  · exact fun id hid => h.below id (hmem.1 hid).1
  · intro e he
    rcases hrec e he with he | ⟨he, hids⟩
    · exact .inl he
    · exact (h.records e he).imp_right fun hid => hmem.2 ⟨hid, hids⟩
  · exact h.sealed
  · intro e he hid
    have hold := (hmem.1 hid).1
    rcases hrec e he with he | ⟨he, -⟩
    · exact absurd (he ▸ h.below _ hold) (lt_irrefl _)
    · exact h.content e he hold
  · intro id hid ks hks k hk
    exact hstay _ (h.whole id (hmem.1 hid).1 ks hks k hk) (hmem.1 hid).2
  · intro elig he k id hk
    rcases finds_step hs he with he | he
    · exact h.finds elig he k id hk
    · exact h.scans he hk

omit [DecidableEq κ] in
theorem StoreOk.sealActive (h : StoreOk s) (o : SealOut) : StoreOk (s.sealActive o).1 := by
  rcases sealActive_cases s o with hs | hs <;> rw [hs]
  · exact h.roll
  · exact h

omit [DecidableEq κ] in
theorem StoreOk.adoptTransition (h : StoreOk s) (v : View) (o : SealOut) :
    StoreOk (s.adoptTransition P v o) := by
  rcases adoptTransition_cases P s v o with hs | ⟨x, -, hs⟩ | ⟨m, top, x, hm, -, -, -, -, -, -, hs⟩
  · exact hs.symm ▸ h
  · rw [hs]
    exact h.frame rfl rfl rfl
  · have hseal := h.sealActive o
    rw [hm] at hseal
    rw [hs]
    exact hseal.frame rfl rfl rfl

theorem StoreOk.afterNode (h : StoreOk s) {a : Pins.Action κ} (ha : alone s a)
    (hn : Pins.step P.toParams s.node a = some n) : StoreOk (s.afterNode a n) := by
  have hs := h.stored (alone_stored ha hn)
  unfold State.afterNode
  split
  · split <;> exact hs.frame rfl rfl rfl
  · exact hs.frame rfl rfl rfl
  · exact hs

theorem storeOk_step (h : StoreOk s) (hs : Stepped P s act s') : StoreOk s' := by
  cases hs with
  | node ha hn => exact h.afterNode ha hn
  | roots hu hn => exact h.stored (roots_stored hn)
  | roll => exact h.roll
  | compact ha hc hn => exact (h.compact hn).frame rfl rfl rfl
  | onEpoch ha hv => exact h.adoptTransition _ _
  | adoptPass ha hv => exact (h.adoptTransition _ _).frame rfl rfl rfl
  | wiped hst => exact (h.sealActive _).frame rfl rfl rfl
  | cover ha hp hc => exact (h.sealActive _).frame rfl rfl rfl
  | _ => exact h.frame rfl rfl rfl

/-! ## The register -/

/-- One id is one placement in all that the register has held. -/
structure PastOk (s : State κ) : Prop where
  reg : s.reg ∈ s.past
  ids : ∀ u ∈ s.past, ∀ l ∈ layouts u, l.id ≤ s.reg.epoch
  unique : ∀ u ∈ s.past, ∀ u' ∈ s.past, ∀ l ∈ layouts u, ∀ l' ∈ layouts u', l.id = l'.id → l = l'

omit [DecidableEq κ] in
theorem PastOk.frame (h : PastOk s) (hr : s'.reg = s.reg) (hp : s'.past = s.past) : PastOk s' where
  reg := by rw [hr, hp]; exact h.reg
  ids := by rw [hr, hp]; exact h.ids
  unique := by rw [hp]; exact h.unique

omit [DecidableEq κ] in
/-- A CAS brings no second placement under one id. -/
theorem PastOk.cas (h : PastOk s) (hu : casView c s.reg = .ok u) (hr : s'.reg = u)
    (hp : s'.past = u :: s.past) : PastOk s' := by
  obtain ⟨hle, hnew⟩ := casView_brings hu
  -- a placement of the new view was carried before, or its id is larger than any
  have hcase : ∀ l ∈ layouts u, l ∈ layouts s.reg ∨
      s.reg.epoch < l.id ∧ l.id ≤ u.epoch ∧ u.pending.map target = some l :=
    fun l hl => (hnew l hl).imp_right fun ⟨h1, h2, h3⟩ => ⟨by omega, by omega, h2⟩
  have hcross : ∀ l ∈ layouts u, ∀ w ∈ s.past, ∀ l' ∈ layouts w, l.id = l'.id → l = l' := by
    intro l hl w hw l' hl' heq
    rcases hcase l hl with hold | ⟨hlt, -⟩
    · exact h.unique _ h.reg w hw l hold l' hl' heq
    · have := h.ids w hw l' hl'
      omega
  have hself : ∀ l ∈ layouts u, ∀ l' ∈ layouts u, l.id = l'.id → l = l' := by
    intro l hl l' hl' heq
    rcases hcase l' hl' with hold | ⟨-, -, hp'⟩
    · exact hcross l hl _ h.reg l' hold heq
    · rcases hcase l hl with hold | ⟨-, -, hp⟩
      · exact (hcross l' hl' _ h.reg l hold heq.symm).symm
      · exact Option.some.inj (hp.symm.trans hp')
  refine ⟨by rw [hr, hp]; exact List.mem_cons_self, fun w hw l hl => ?_, fun w hw w' hw' => ?_⟩
  · rw [hp] at hw
    rw [hr]
    rcases List.mem_cons.1 hw with rfl | hpast
    · rcases hcase l hl with hold | ⟨-, hid, -⟩
      · exact (h.ids _ h.reg l hold).trans hle
      · exact hid
    · exact (h.ids w hpast l hl).trans hle
  · rw [hp] at hw hw'
    intro l hl l' hl' heq
    rcases List.mem_cons.1 hw with rfl | hpast <;> rcases List.mem_cons.1 hw' with rfl | hpast'
    · exact hself l hl l' hl' heq
    · exact hcross l hl w' hpast' l' hl' heq
    · exact (hcross l' hl' w hpast l hl heq.symm).symm
    · exact h.unique w hpast w' hpast' l hl l' hl' heq

omit [DecidableEq κ] in
theorem pastOk_start (h : Sound v) (now : ℤ) : PastOk (start v now : State κ) := by
  obtain ⟨hcur, hpend⟩ := h
  have hcase : ∀ l ∈ layouts v, l = current v ∨ ∃ p, v.pending = some p ∧ l = target p := by
    intro l hl
    rcases List.mem_cons.1 hl with rfl | hl
    · exact .inl rfl
    · obtain ⟨p, hp, rfl⟩ := Option.map_eq_some_iff.1 (Option.mem_toList.1 hl)
      exact .inr ⟨p, hp, rfl⟩
  have hself : ∀ l ∈ layouts v, ∀ l' ∈ layouts v, l.id = l'.id → l = l' := by
    intro l hl l' hl' heq
    rcases hcase l hl with rfl | ⟨p, hp, rfl⟩ <;> rcases hcase l' hl' with rfl | ⟨p', hp', rfl⟩
    · rfl
    · exact absurd heq.symm (hpend p' hp').2
    · exact absurd heq (hpend p hp).2
    · rw [Option.some.inj (hp.symm.trans hp')]
  refine ⟨List.mem_singleton_self v, fun u hu l hl => ?_, fun u hu u' hu' l hl l' hl' => ?_⟩
  · obtain rfl := List.mem_singleton.1 hu
    rcases hcase l hl with rfl | ⟨p, hp, rfl⟩
    · exact hcur
    · exact (hpend p hp).1
  · obtain rfl := List.mem_singleton.1 hu
    obtain rfl := List.mem_singleton.1 hu'
    exact hself l hl l' hl'

/-! ## What every state keeps -/

/-- A step of the store or of a pass: neither views nor stamps change. -/
structure Aside (s s' : State κ) : Prop where
  log : s'.log = s.log
  past : s'.past = s.past
  reg : s'.reg = s.reg
  view : s'.view = s.view
  stamps : s'.stamps = s.stamps
  cur : ∀ i u, s'.cur i = some u → s.cur i = some u
  pass : s'.pass = s.pass ∨ s'.pass = .idle

omit [DecidableEq κ] in
theorem sealActive_aside (s : State κ) (o : SealOut) : Aside s (s.sealActive o).1 := by
  rcases sealActive_cases s o with hs | hs <;> rw [hs] <;>
    exact ⟨rfl, rfl, rfl, rfl, rfl, fun _ _ => id, .inl rfl⟩

omit [DecidableEq κ] in
theorem adoptTransition_aside (P : Params κ) (s : State κ) (v : View) (o : SealOut) :
    Aside s (s.adoptTransition P v o) := by
  rcases adoptTransition_cases P s v o with hs | ⟨x, -, hs⟩ | ⟨m, top, x, hm, -, -, -, -, -, -, hs⟩
  · rw [hs]
    exact ⟨rfl, rfl, rfl, rfl, rfl, fun _ _ => id, .inl rfl⟩
  · rw [hs]
    exact ⟨rfl, rfl, rfl, rfl, rfl, fun _ _ => id, .inl rfl⟩
  · have ha := sealActive_aside s o
    rw [hm] at ha
    rw [hs]
    exact ⟨ha.log, ha.past, ha.reg, ha.view, ha.stamps, ha.cur, ha.pass⟩

omit [DecidableEq κ] in
theorem afterNode_aside (s : State κ) (a : Pins.Action κ) (n : Pins.State κ) :
    Aside s (s.afterNode a n) := by
  unfold State.afterNode
  split
  · split
    · refine ⟨rfl, rfl, rfl, rfl, rfl, fun i u hu => ?_, .inl rfl⟩
      simp only [Function.update_apply] at hu
      split_ifs at hu
      exact hu
    · exact ⟨rfl, rfl, rfl, rfl, rfl, fun _ _ => id, .inl rfl⟩
  · exact ⟨rfl, rfl, rfl, rfl, rfl, by simp, .inr rfl⟩
  · exact ⟨rfl, rfl, rfl, rfl, rfl, fun _ _ => id, .inl rfl⟩

theorem log_grows (hs : Stepped P s act s') : ∃ new, s'.log = new ++ s.log := by
  cases hs with
  | node ha hn => exact ⟨[], (afterNode_aside ..).log⟩
  | onEpoch ha hv => exact ⟨[], (adoptTransition_aside ..).log⟩
  | adoptPass ha hv => exact ⟨[], (adoptTransition_aside ..).log⟩
  | wiped hst => exact ⟨[], (sealActive_aside ..).log⟩
  | cover ha hp hc => exact ⟨[], (sealActive_aside ..).log⟩
  | adopt hv => exact ⟨[_], rfl⟩
  | compact ha hc hn => exact ⟨_, rfl⟩
  | forward => exact ⟨_, rfl⟩
  | visit ha hp hn hid => exact ⟨_, rfl⟩
  | audit ha hp hid => exact ⟨_, rfl⟩
  | offer hp hb => exact ⟨_, rfl⟩
  | _ => exact ⟨[], rfl⟩

theorem moves_step (hs : Stepped P s act s') :
    Log.Moves casView s.reg s'.reg s.past s'.past := by
  cases hs with
  | node ha hn => exact .inl ⟨(afterNode_aside ..).reg, (afterNode_aside ..).past⟩
  | onEpoch ha hv => exact .inl ⟨(adoptTransition_aside ..).reg, (adoptTransition_aside ..).past⟩
  | adoptPass ha hv => exact .inl ⟨(adoptTransition_aside ..).reg, (adoptTransition_aside ..).past⟩
  | wiped hst => exact .inl ⟨(sealActive_aside ..).reg, (sealActive_aside ..).past⟩
  | cover ha hp hc => exact .inl ⟨(sealActive_aside ..).reg, (sealActive_aside ..).past⟩
  | change hu => exact .inr ⟨_, hu, rfl⟩
  | report hp hu => exact .inr ⟨_, hu, rfl⟩
  | _ => exact .inl ⟨rfl, rfl⟩

/-- The register's views are those of a chain of CASes, as the committed ones of the protocol are.
-/
theorem held_run {now : ℤ} {acts : List (Action κ)}
    (hr : Machine.run (step P) (start v now) acts = some s) : Log.Held casView v s.reg s.past :=
  .run (fun _ _ _ hs => moves_step (step_stepped hs)) (Log.held_start casView v) hr

theorem pastOk_step (h : PastOk s) (hs : Stepped P s act s') : PastOk s' := by
  rcases moves_step hs with ⟨hr, hp⟩ | ⟨c, hu, hp⟩
  · exact h.frame hr hp
  · exact h.cas hu rfl hp

/-- The views a node uses are ones it has adopted. -/
structure ViewOk (s : State κ) : Prop where
  view : .adopt s.view ∈ s.log
  adopted : ∀ u, .adopt u ∈ s.log → u ∈ s.past
  cur : ∀ i u, s.cur i = some u → .adopt u ∈ s.log

omit [DecidableEq κ] in
theorem ViewOk.aside (h : ViewOk s) (ha : Aside s s') : ViewOk s' where
  view := by rw [ha.view, ha.log]; exact h.view
  adopted := by rw [ha.log, ha.past]; exact h.adopted
  cur := fun i u hu => ha.log ▸ h.cur i u (ha.cur i u hu)

omit [DecidableEq κ] in
theorem ViewOk.append (h : ViewOk s) {new : List (Event κ)} (hnew : ∀ u, .adopt u ∉ new)
    (hv : s'.view = s.view) (hl : s'.log = new ++ s.log) (hp : s'.past = s.past)
    (hc : s'.cur = s.cur) : ViewOk s' where
  view := by rw [hv, hl]; exact List.mem_append_right _ h.view
  adopted := by
    rw [hl, hp]
    intro u hu
    exact h.adopted u ((List.mem_append.1 hu).resolve_left (hnew u))
  cur := by
    rw [hc, hl]
    exact fun i u hu => List.mem_append_right _ (h.cur i u hu)

theorem visit_adopts {id : ℕ} {p : Option Pending} : .adopt u ∉ (s.visit P id v p).2 := by
  simp only [State.visit, List.mem_flatMap, not_exists, not_and]
  intro e _ hu
  split at hu
  · simp at hu
  · simp at hu
  · simp at hu

/-- A step keeps the views to those adopted. -/
theorem viewOk_step (h : ViewOk s) (hs : Stepped P s act s') : ViewOk s' := by
  cases hs with
  | node ha hn => exact h.aside (afterNode_aside ..)
  | onEpoch ha hv => exact h.aside (adoptTransition_aside ..)
  | adoptPass ha hv =>
    exact (h.aside (adoptTransition_aside ..)).append (fun _ => List.not_mem_nil) rfl rfl rfl rfl
  | wiped hst =>
    exact (h.aside (sealActive_aside ..)).append (fun _ => List.not_mem_nil) rfl rfl rfl rfl
  | cover ha hp hc =>
    exact (h.aside (sealActive_aside ..)).append (fun _ => List.not_mem_nil) rfl rfl rfl rfl
  | change hu => exact ⟨h.view, fun u hu => List.mem_cons_of_mem _ (h.adopted u hu), h.cur⟩
  | report hp hu => exact ⟨h.view, fun u hu => List.mem_cons_of_mem _ (h.adopted u hu), h.cur⟩
  | place =>
    refine ⟨h.view, h.adopted, fun i u hu => ?_⟩
    simp only [Function.update_apply] at hu
    split_ifs at hu
    · cases hu
      exact h.view
    · exact h.cur i u hu
  | adopt hv =>
    refine ⟨List.mem_cons_self, fun u hu => ?_,
      fun i u hu => List.mem_cons_of_mem _ (h.cur i u hu)⟩
    rcases List.mem_cons.1 hu with hu | hu
    · cases hu
      exact hv
    · exact h.adopted u hu
  | compact ha hc hn => exact h.append (by simp) rfl rfl rfl rfl
  | forward => exact h.append (by simp) rfl rfl rfl rfl
  | visit ha hp hn hid => exact h.append (fun _ => visit_adopts) rfl rfl rfl rfl
  | audit ha hp hid => exact h.append (fun _ => visit_adopts) rfl rfl rfl rfl
  | offer hp hb => exact h.append (by simp) rfl rfl rfl rfl
  | _ => exact h.append (fun _ => List.not_mem_nil) rfl rfl rfl rfl

/-- Store, register and views are sound. -/
structure Inv (s : State κ) : Prop where
  store : StoreOk s
  past : PastOk s
  view : ViewOk s

omit [DecidableEq κ] in
theorem inv_start (h : Sound v) (now : ℤ) : Inv (start v now : State κ) where
  store := storeOk_start v now
  past := pastOk_start h now
  view := ⟨List.mem_singleton_self _, by simp [start], by simp [start]⟩

theorem inv_step (h : Inv s) (hs : Stepped P s act s') : Inv s' :=
  ⟨storeOk_step h.store hs, pastOk_step h.past hs, viewOk_step h.view hs⟩

omit [DecidableEq κ] in
theorem Inv.layout_eq (h : Inv s) {l l' : Layout} (hu : .adopt u ∈ s.log) (hl : l ∈ layouts u)
    (hu' : u' ∈ s.past) (hl' : l' ∈ layouts u') (heq : l.id = l'.id) : l = l' :=
  h.past.unique u (h.view.adopted u hu) u' hu' l hl l' hl' heq

/-! ## A visit -/

/-- The owners that a visit offers to. -/
def goals (P : Params κ) (pl : View) (p : Option Pending) (k : κ) : List NodeID :=
  match p with
  | none => owners P pl k
  | some _ => pendingOwners P pl k

/-- A key that is neither skipped nor deferred is offered to whom the pass is to leave it with,
but for co-owners where the pack was settled for the placement in force. -/
theorem judge_spec {pl : View} {p : Option Pending} :
    s.judge P id v pl p k = .skip ∨ s.judge P id v pl p k = .defer ∨ ∃ ts sp,
      s.judge P id v pl p k = .offer ts sp ∧ ∀ t ∈ goals P pl p k, t ≠ P.self →
        t ∈ ts ∨ t ∈ sp ∧ t ∈ owners P pl k ∧ s.settledFor id v v.placementEpoch = true := by
  unfold State.judge
  by_cases hskip : (s.node.isCorrupt k || s.provedDead P k id) = true
  · exact .inl (if_pos hskip)
  · rw [if_neg hskip]
    cases p with
    | none =>
      refine .inr (.inr ⟨_, _, rfl, fun t ht hne => .inl (List.mem_filter.2 ⟨?_, ?_⟩)⟩)
      · exact List.mem_append_left _ ht
      · simpa using hne
    | some p =>
      dsimp only
      split_ifs with hready hset
      · exact .inr (.inl rfl)
      · refine .inr (.inr ⟨_, _, rfl, fun t ht hne => ?_⟩)
        have hmem : t ∈ (pendingOwners P pl k).filter (· ≠ P.self) :=
          List.mem_filter.2 ⟨ht, by simpa using hne⟩
        by_cases ho : t ∈ owners P pl k
        · exact .inr ⟨List.mem_filter.2 ⟨hmem, by simpa using ho⟩, ho, hset⟩
        · exact .inl (List.mem_filter.2 ⟨hmem, by simpa using ho⟩)
      · refine .inr (.inr ⟨_, _, rfl, fun t ht hne => .inl (List.mem_append_left _ ?_)⟩)
        exact List.mem_filter.2 ⟨ht, by simpa using hne⟩

/-- A visit offers a key to its owners, skips it, or spares the owners it was settled for. -/
theorem visit_spec {p : Option Pending} (hd : (s.visit P id v p).1.deferred = false)
    (hk : k ∈ (s.visit P id v p).1.keys) :
    .skip (s.visit P id v p).1.forID k ∈ (s.visit P id v p).2 ∨
      ∀ t ∈ goals P s.view p k, t ≠ P.self → (t, k) ∈ (s.visit P id v p).1.todo ∨
        .spare (s.visit P id v p).1.forID t k ∈ (s.visit P id v p).2 ∧ t ∈ owners P s.view k ∧
          s.settledFor id v v.placementEpoch = true := by
  have hj : (k, s.judge P id v s.view p k) ∈ ((s.node.records.filter fun e => e.2 = id).map
      Prod.fst).map fun k => (k, s.judge P id v s.view p k) := List.mem_map.2 ⟨k, hk, rfl⟩
  have hspec : s.judge P id v s.view p k = .skip ∨ s.judge P id v s.view p k = .defer ∨ _ :=
    judge_spec
  rcases hspec with h | h | ⟨ts, sp, h, hspec⟩
  · rw [h] at hj
    exact .inl (List.mem_flatMap.2 ⟨_, hj, List.mem_singleton_self _⟩)
  · rw [h] at hj
    have := List.any_eq_false.1 hd _ hj
    simp at this
  · rw [h] at hj
    refine .inr fun t ht hne => (hspec t ht hne).imp (fun hts => ?_) fun hsp => ⟨?_, hsp.2⟩
    · exact List.mem_flatMap.2 ⟨_, hj, List.mem_map.2 ⟨t, hts, rfl⟩⟩
    · exact List.mem_flatMap.2 ⟨_, hj, List.mem_map.2 ⟨t, hsp.1, rfl⟩⟩

theorem visit_none_deferred : (s.visit P id v none).1.deferred = false := by
  refine List.any_eq_false.2 fun e he => ?_
  obtain ⟨k, -, rfl⟩ := List.mem_map.1 he
  simp only [State.judge]
  split_ifs <;> simp

/-- The two views are of the same placements. -/
def sameIDs (v pl : View) : Bool :=
  v.placementEpoch = pl.placementEpoch ∧ v.pending.map Pending.id = pl.pending.map Pending.id

omit [DecidableEq κ] in
theorem exists_layout {pl : View} (h : sameIDs v pl) {p : Option Pending}
    (hp : p = none ∨ p = v.pending) : ∃ l ∈ layouts pl,
      l.id = (p.map Pending.id).getD v.placementEpoch ∧
        ∀ (P : Params κ) (k : κ), l.owners P k = goals P pl p k := by
  obtain ⟨hcur, hpend⟩ : v.placementEpoch = pl.placementEpoch ∧
    v.pending.map Pending.id = pl.pending.map Pending.id := by simpa [sameIDs] using h
  cases p with
  | none => exact ⟨current pl, current_mem pl, hcur.symm, fun P k => rfl⟩
  | some p =>
    rw [← hp.resolve_left (by simp), Option.map_some] at hpend
    obtain ⟨q, hq, hid⟩ := Option.map_eq_some_iff.1 hpend.symm
    refine ⟨target q, target_mem hq, hid, fun P k => ?_⟩
    simp [Layout.owners, target, goals, pendingOwners, hq]

/-! ## What only grows -/

/-- What a step only adds to. -/
structure Grows (s s' : State κ) : Prop where
  log : ∃ new, s'.log = new ++ s.log
  active : s.active ≤ s'.active
  content : ∀ id, id < s.active → s'.content id = s.content id

omit [DecidableEq κ] in
theorem sealActive_content (s : State κ) (o : SealOut) :
    s.active ≤ (s.sealActive o).1.active ∧
      ∀ id, id < s.active → (s.sealActive o).1.content id = s.content id := by
  rcases sealActive_cases s o with hs | hs <;> rw [hs]
  · exact ⟨Nat.le_succ _, fun id hid => Function.update_of_ne (by omega) ..⟩
  · exact ⟨le_rfl, fun _ _ => rfl⟩

omit [DecidableEq κ] in
theorem adoptTransition_content (P : Params κ) (s : State κ) (v : View) (o : SealOut) :
    s.active ≤ (s.adoptTransition P v o).active ∧
      ∀ id, id < s.active → (s.adoptTransition P v o).content id = s.content id := by
  rcases adoptTransition_cases P s v o with hs | ⟨x, -, hs⟩ | ⟨m, top, x, hm, -, -, -, -, -, -, hs⟩
  · rw [hs]
    exact ⟨le_rfl, fun _ _ => rfl⟩
  · rw [hs]
    exact ⟨le_rfl, fun _ _ => rfl⟩
  · have hc := sealActive_content s o
    rw [hm] at hc
    rw [hs]
    exact hc

/-- What a step only adds to. -/
theorem stepped_grows (hs : Stepped P s act s') : Grows s s' := by
  obtain ⟨hact, hcontent⟩ : s.active ≤ s'.active ∧
      ∀ id, id < s.active → s'.content id = s.content id := by
    cases hs with
    | node ha hn =>
      unfold State.afterNode
      split
      · split <;> exact ⟨le_rfl, fun _ _ => rfl⟩
      · exact ⟨le_rfl, fun _ _ => rfl⟩
      · exact ⟨le_rfl, fun _ _ => rfl⟩
    | roll => exact ⟨Nat.le_succ _, fun id hid => Function.update_of_ne (by omega) ..⟩
    | onEpoch ha hv => exact adoptTransition_content ..
    | adoptPass ha hv => exact adoptTransition_content ..
    | wiped hst => exact sealActive_content ..
    | cover ha hp hc => exact sealActive_content ..
    | _ => exact ⟨le_rfl, fun _ _ => rfl⟩
  exact ⟨log_grows hs, hact, hcontent⟩

end Dstore.Cluster.Reconcile

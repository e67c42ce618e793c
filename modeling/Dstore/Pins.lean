import Dstore.Index
import Dstore.Meta
import Dstore.Lib.Machine

/-!
# Barriers, pins and sweeps of one node

A node counts the barriers it takes part in. A key found present is pinned with the count of the
moment, and a sweep with the mark of count `c` honours the pins stamped `c - 1` and later and leaves
alone what was written since the barrier before. Around the node stand the gc register, the messages
of a barrier and of a mark, and one clock.

`poll` is called from two places. It reads the register, asks under the lock whether there is a
sweep to do, and takes the lock again to say that one runs; so several sweeps may run.

`acks`, `ackedAt`, `gates`, `dropped` and a mark's `rootsAt` record what happened and when; the code
does not read them.
-/

namespace Dstore.Pins

variable {κ : Type} [DecidableEq κ]

/-- A minute, in nanoseconds. -/
def minute : ℤ := 60 * 10 ^ 9

/-- The configuration, as far as the pin rule needs it, and the bytes of a key that its pin is kept
under. -/
structure Params (κ : Type) where
  gcInterval : ℤ
  putTTL : ℤ
  gcInterval_gt : 10 * minute < gcInterval
  putTTL_le : putTTL ≤ gcInterval - 5 * minute
  tailOf : κ → Bytes

/-- Where the pin of a key is kept. -/
def Params.pinKey (P : Params κ) (k : κ) : Bytes := Meta.mkPin ++ P.tailOf k

/-- What a node keeps of a barrier it recorded: the epoch, the id that the next pack would get, and
whether the register took the ack. -/
structure BarrierRecord where
  epoch : ℕ
  eligibleBelow : ℕ
  confirmed : Bool := false
  deriving DecidableEq, Repr

/-- The phases of an epoch. -/
inductive Phase
  | idle
  | barrier
  | mark
  | sweep
  | aborted
  deriving DecidableEq, Repr

/-- The gc register, with the node's own entries of `acked` and `sweep_done`. -/
structure GCState where
  epoch : ℕ := 0
  phase : Phase := .idle
  barrierAt : ℤ := 0
  acked : Bool := false
  sweepDone : Bool := false
  lastOK : ℕ := 0
  deriving DecidableEq, Repr

/-- Where a `handleBarrier` stands: past its check of the last ack, past the record it wrote, or
past the ack in the register. -/
inductive Handler
  | checked (epoch : ℕ) (last : ℤ)
  | recorded (epoch count eligibleBelow : ℕ)
  | acked (epoch count eligibleBelow : ℕ)
  deriving DecidableEq, Repr

/-- The message that starts a mark: who owns what under its placement, and when its roots were
read. -/
structure MarkMsg (κ : Type) where
  epoch : ℕ
  owned : κ → Bool
  rootsAt : ℤ

/-- A mark in memory or in its file, with the packs the keys were found in. -/
structure Mark (κ : Type) where
  epoch : ℕ
  count : ℕ
  eligBelow : ℕ
  owned : κ → Bool
  eligible : κ → Option ℕ
  marked : List κ
  rootsAt : ℤ

/-- A mark to sweep with; here `eligBelow` is that of the count before. -/
structure SweepInput (κ : Type) extends Mark κ where
  overflow : Bool := false

/-- Where a `poll` stands that found the register in a sweep phase: the state it read, before and
after it asked whether there is a sweep to do. -/
inductive Poll
  | read (st : GCState)
  | checked (st : GCState)
  deriving DecidableEq, Repr

/-- Where a `sweep` stands: before it has its input, before it compacts, before `dropPins` scans,
before `dropPins` commits its batch, and before it reports. -/
inductive Sweep (κ : Type)
  | starting (epoch : ℕ)
  | compacting (si : SweepInput κ)
  | dropping (si : SweepInput κ)
  | deleting (si : SweepInput κ) (batch : List Bytes)
  | reporting (epoch : ℕ)

/-- A key that a reference's gate found present, when, and at which count. -/
structure Gate (κ : Type) where
  key : κ
  time : ℤ
  count : ℕ
  deriving DecidableEq, Repr

/-- The node, the register, the messages under way and the clock. `records` gives each record with
its pack, and `segments` are the sealed packs. -/
structure State (κ : Type) where
  now : ℤ
  counter : ℕ := 0
  lastAck : ℤ := 0
  history : ℕ → Option BarrierRecord := fun _ => none
  records : List (κ × ℕ) := []
  segments : List ℕ := []
  pins : KV Bytes ℕ := .empty
  corrupt : List κ := []
  handlers : List Handler := []
  mark : Option (Mark κ) := none
  files : ℕ → Option (Mark κ) := fun _ => none
  polls : List Poll := []
  sweeping : Bool := false
  sweeps : ℕ → Option (Sweep κ) := fun _ => none
  swept : List ℕ := []
  gc : GCState := {}
  barriers : List ℕ := []
  frozen : List ℕ := []
  marks : List (MarkMsg κ) := []
  acks : List (ℕ × ℕ) := []
  ackedAt : ℕ → ℤ := fun _ => 0
  gates : List (Gate κ) := []
  dropped : ℕ := 0

namespace State

variable (P : Params κ) (s : State κ)

/-- The id of the pack that is being written. -/
def activeSegmentID : ℕ := s.segments.getLast?.getD 0 + 1

/-- Whether there is a record of the key. -/
def has (k : κ) : Bool := k ∈ s.records.map Prod.fst

/-- Whether the record was found corrupt. -/
def isCorrupt (k : κ) : Bool := k ∈ s.corrupt

/-- Pins keys with the count of the moment. -/
def pinKeys (keys : List κ) : KV Bytes ℕ :=
  keys.foldl (fun pins k => pins.set (P.pinKey k) s.counter) s.pins

/-- Whether the key has a pin stamped `atLeast` or later. -/
def pinned (k : κ) (atLeast : ℕ) : Bool :=
  match s.pins.get (P.pinKey k) with
  | none => false
  | some stamp => atLeast ≤ stamp

/-- The spacing check of `handleBarrier`. -/
def tooSoon : Bool :=
  s.lastAck ≠ 0 ∧ s.now - s.lastAck < P.gcInterval - 5 * minute ∧ 10 * minute < P.gcInterval

/-- The sealed packs as `Segments` and `ScanIndex` give them. -/
def packs : List (Segment κ) :=
  s.segments.map fun id => ⟨id, (s.records.filter fun e => e.2 = id).map Prod.fst⟩

/-- The confirmed or unconfirmed count of an epoch, of the last sixteen. -/
def countOf (epoch : ℕ) : Option (ℕ × BarrierRecord) :=
  (List.range 16).findSome? fun i =>
    if i < s.counter then
      match s.history (s.counter - i) with
      | some r => if r.epoch = epoch then some (s.counter - i, r) else none
      | none => none
    else none

/-- What a mark starts with; one whose barrier was not confirmed is refused. -/
def handleMark (m : MarkMsg κ) (fails : ℕ → Option ℕ) : Option (Mark κ) :=
  match s.countOf m.epoch with
  | some (count, r) =>
    if r.confirmed then
      some {
        epoch := m.epoch
        count := count
        eligBelow := r.eligibleBelow
        owned := m.owned
        eligible := scanEligible r.eligibleBelow fails s.packs
        marked := []
        rootsAt := m.rootsAt }
    else none
  | none => none

/-- The mark of an epoch as `loadMark` reads it back, with what it finds in the packs now. -/
def loadMark (epoch : ℕ) (fails : ℕ → Option ℕ) : Option (Mark κ) :=
  (s.files epoch).map fun m => { m with eligible := scanEligible m.eligBelow fails s.packs }

/-- The mark in memory, if it is of the epoch, or else the one in the file, with the bound of the
count before. -/
def sweepInputFor (epoch : ℕ) (fails : ℕ → Option ℕ) : Option (SweepInput κ) :=
  let mark := match s.mark with
    | some m => if m.epoch = epoch then some m else s.loadMark epoch fails
    | none => s.loadMark epoch fails
  mark.map fun m =>
    { m with
      eligBelow := match s.history (m.count - 1) with
        | some r => r.eligibleBelow
        | none => 0 }

/-- The sweep's predicate; `cur` is ownership under the current view, `settled` whether a pack's
records have all been passed on. -/
def live (si : SweepInput κ) (cur : κ → Bool) (settled : ℕ → Bool) (k : κ) : Bool :=
  if s.isCorrupt k then false
  else
    match si.eligible k with
    | none => true
    | some packID =>
      if si.eligBelow ≤ packID then true
      else if s.pinned P k (si.count - 1) then true
      else if si.owned k then
        if k ∈ si.marked then true else si.overflow
      else if cur k then true
      else !settled packID

/-- Whether a poll that read `st` has a sweep to do. -/
def due (st : GCState) : Bool :=
  st.phase = .sweep ∧ st.acked ∧ !st.sweepDone ∧ st.epoch ∉ s.swept ∧ !s.sweeping

/-- The pins that `dropPins` collects: those its scan comes to that are stamped below its bound. -/
def oldPins (below : ℕ) : List Bytes :=
  Meta.scan s.pins Meta.mkPin
    (fun batch key stamp => (if stamp < below then batch ++ [key] else batch, true)) []

/-- Another stage for the sweep `i`, or its end. -/
def put (i : ℕ) (sw : Option (Sweep κ)) : State κ :=
  { s with sweeps := Function.update s.sweeps i sw }

end State

/-- The register with the node's report of an epoch, which is refused once the sweep is over. -/
def GCState.report (st : GCState) (epoch : ℕ) : GCState :=
  if st.epoch = epoch ∧ st.phase = .sweep then { st with sweepDone := true } else st

/-- The steps of the node, of its callers and of the coordinators. A sweep goes by a number of its
own; `fails` says where the scan of a pack's index fails, if it does. -/
inductive Action (κ : Type)
  | tick (d : ℕ)
  | put (keys : List κ) (pack : ℕ)
  | missing (keys : List κ) (pin : Bool)
  | sealSegment (id : ℕ)
  | markCorrupt (k : κ)
  | check (epoch : ℕ)
  | record (epoch : ℕ) (last : ℤ)
  | ack (epoch count eligibleBelow : ℕ)
  | confirm (epoch count eligibleBelow : ℕ)
  | handleMark (i : ℕ) (fails : ℕ → Option ℕ)
  | marking (keys : List κ)
  | persist
  | dropMark
  | readGC
  | checkSweep (st : GCState)
  | startSweep (st : GCState) (i : ℕ)
  | input (i : ℕ) (fails : ℕ → Option ℕ)
  | compact (i : ℕ) (ids : List ℕ) (pack : ℕ) (cur : κ → Bool) (settled : ℕ → Bool)
  | scanPins (i : ℕ)
  | dropPins (i : ℕ)
  | report (i : ℕ) (ok : Bool)
  | restart
  | barrier
  | snapshot
  | roots (epoch : ℕ) (owned : κ → Bool)
  | markDone
  | abort
  | finish
  | resweep

/-- One step. A put and a gate hold the sweep lock shared, a record and a compaction hold it alone;
`dropPins` holds none, nor does `poll` between its look at the register, its check and its start. -/
def step (P : Params κ) (s : State κ) : Action κ → Option (State κ)
  | .tick d => some { s with now := s.now + d }
  | .put keys pack =>
    if s.activeSegmentID ≤ pack then
      let hits := keys.filter fun k => s.has k && !s.isCorrupt k
      let fresh := keys.filter fun k => !(s.has k && !s.isCorrupt k)
      some { s with
        records := s.records ++ fresh.map fun k => (k, pack)
        corrupt := s.corrupt.filter fun k => k ∉ fresh
        pins := s.pinKeys P hits }
    else none
  | .missing keys pin =>
    if pin then
      let present := keys.filter fun k => s.has k && !s.isCorrupt k
      some { s with
        pins := s.pinKeys P present
        gates := s.gates ++ present.map fun k => ⟨k, s.now, s.counter⟩ }
    else some s
  | .sealSegment id =>
    if s.activeSegmentID ≤ id then some { s with segments := s.segments ++ [id] } else none
  | .markCorrupt k => some { s with corrupt := k :: s.corrupt }
  | .check epoch =>
    if epoch ∈ s.barriers then
      if s.tooSoon P then some { s with barriers := s.barriers.erase epoch }
      else some { s with
        barriers := s.barriers.erase epoch
        handlers := .checked epoch s.lastAck :: s.handlers }
    else none
  | .record epoch last =>
    if .checked epoch last ∈ s.handlers then
      let c := s.counter + 1
      some { s with
        handlers := .recorded epoch c s.activeSegmentID :: s.handlers.erase (.checked epoch last)
        history := Function.update s.history c (some ⟨epoch, s.activeSegmentID, false⟩)
        counter := c
        lastAck := s.now
        ackedAt := Function.update s.ackedAt c s.now }
    else none
  | .ack epoch count below =>
    if .recorded epoch count below ∈ s.handlers then
      let handlers := s.handlers.erase (.recorded epoch count below)
      if s.gc.epoch = epoch ∧ s.gc.phase = .barrier then
        some { s with
          handlers := .acked epoch count below :: handlers
          gc := { s.gc with acked := true }
          acks := (epoch, count) :: s.acks }
      else some { s with handlers := handlers }
    else none
  | .confirm epoch count below =>
    if .acked epoch count below ∈ s.handlers then
      some { s with
        handlers := s.handlers.erase (.acked epoch count below)
        history := Function.update s.history count (some ⟨epoch, below, true⟩) }
    else none
  | .handleMark i fails =>
    match s.marks[i]? with
    | none => none
    | some m =>
      match s.handleMark m fails with
      | none => some s
      | some mark => some { s with mark := some mark }
  | .marking keys =>
    s.mark.map fun m => { s with mark := some { m with marked := keys ++ m.marked } }
  | .persist =>
    s.mark.map fun m => { s with files := Function.update s.files m.epoch (some m) }
  | .dropMark => some { s with mark := none }
  | .readGC => some { s with polls := .read s.gc :: s.polls }
  | .checkSweep st =>
    if .read st ∈ s.polls then
      let polls := s.polls.erase (.read st)
      some { s with polls := if s.due st then .checked st :: polls else polls }
    else none
  | .startSweep st i =>
    if .checked st ∈ s.polls ∧ s.sweeps i = none then
      some { s.put i (some (.starting st.epoch)) with
        polls := s.polls.erase (.checked st)
        sweeping := true }
    else none
  | .input i fails =>
    match s.sweeps i with
    | some (.starting epoch) =>
      match s.sweepInputFor epoch fails with
      | none => some (s.put i (some (.reporting epoch)))
      | some si => some (s.put i (some (.compacting si)))
    | _ => none
  | .compact i ids pack cur settled =>
    match s.sweeps i with
    | some (.compacting si) =>
      if ids ⊆ s.segments ∧ s.activeSegmentID ≤ pack then
        some { s.put i (some (.dropping si)) with
          records := s.records.filterMap fun e =>
            if e.2 ∉ ids then some e
            else if s.live P si cur settled e.1 then some (e.1, pack)
            else none
          segments := s.segments.filter fun id => id ∉ ids }
      else none
    | _ => none
  | .scanPins i =>
    match s.sweeps i with
    | some (.dropping si) => some (s.put i (some (.deleting si (s.oldPins (si.count - 1)))))
    | _ => none
  | .dropPins i =>
    match s.sweeps i with
    | some (.deleting si batch) =>
      some { s.put i (some (.reporting si.epoch)) with
        pins := batch.foldl (fun pins key => pins.delete key) s.pins
        dropped := max s.dropped (si.count - 1)
        swept := si.epoch :: s.swept }
    | _ => none
  | .report i ok =>
    match s.sweeps i with
    | some (.reporting epoch) =>
      some { s.put i none with
        gc := if ok then s.gc.report epoch else s.gc
        swept := epoch :: s.swept
        sweeping := false }
    | _ => none
  | .restart =>
    some { s with
      handlers := []
      mark := none
      polls := []
      sweeping := false
      sweeps := fun _ => none
      swept := [] }
  | .barrier =>
    if s.gc.phase ≠ .barrier ∧ s.gc.phase ≠ .mark ∧ s.gc.phase ≠ .sweep ∧
        P.gcInterval ≤ s.now - s.gc.barrierAt then
      some { s with
        gc := { s.gc with
          epoch := s.gc.epoch + 1
          phase := .barrier
          barrierAt := s.now
          acked := false
          sweepDone := false }
        barriers := (s.gc.epoch + 1) :: s.barriers }
    else none
  | .snapshot =>
    if s.gc.phase = .barrier then
      some { s with
        gc := { s.gc with phase := .mark }
        frozen := if s.gc.acked then s.gc.epoch :: s.frozen else s.frozen }
    else none
  | .roots epoch owned =>
    if epoch ∈ s.frozen then some { s with marks := s.marks ++ [⟨epoch, owned, s.now⟩] } else none
  | .markDone =>
    if s.gc.phase = .mark then some { s with gc := { s.gc with phase := .sweep } } else none
  | .abort =>
    if s.gc.phase = .idle ∨ s.gc.phase = .sweep then none
    else some { s with gc := { s.gc with phase := .aborted } }
  | .finish =>
    if s.gc.phase = .sweep then
      some { s with gc := { s.gc with phase := .idle, lastOK := s.gc.epoch } }
    else none
  | .resweep =>
    if s.gc.phase = .idle ∧ s.gc.lastOK ≠ 0 then
      some { s with gc := { s.gc with
        epoch := s.gc.lastOK
        phase := .sweep
        sweepDone := false } }
    else none

/-- A node that has recorded no barrier. -/
def start (now : ℤ) : State κ := { now := now }

end Dstore.Pins

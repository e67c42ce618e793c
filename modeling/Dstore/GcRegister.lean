import Dstore.Ballot
import Dstore.Lib.Log

/-!
# The gc register

One register holds the state of garbage collection: the epoch, its phase, the acks of its barrier
and the reports of the sweeps. Coordinators, several at a time or superseded ones, and every node
write it, each with a CAS that has a guard of its own and names an epoch read some time before.
-/

namespace Dstore.Gc

/-- The phases of an epoch. -/
inductive Phase
  | idle
  | barrier
  | mark
  | sweep
  | aborted
  deriving DecidableEq, Repr

/-- What a node reports of its mark or its sweep. -/
structure NodeStat where
  id : NodeID
  marked : ℕ := 0
  live : ℕ := 0
  freed : ℕ := 0
  packs : ℕ := 0
  noMark : Bool := false
  copied : ℕ := 0
  duration : ℤ := 0
  deriving DecidableEq, Repr

/-- The value of the register. -/
structure GCState where
  epoch : ℕ := 0
  phase : Phase := .idle
  barrierAt : ℤ := 0
  snapshotAt : ℤ := 0
  placement : Bytes := []
  acked : List NodeID := []
  markDone : Bool := false
  sweepWave : ℕ := 0
  sweepDone : List NodeStat := []
  hold : Bool := false
  last : List NodeStat := []
  nonce : Bytes := []
  marked : List NodeStat := []
  error : String := ""
  missing : List Bytes := []
  tolerate : Bool := false
  lastOK : ℕ := 0
  garbage : ℚ := 0
  deriving DecidableEq, Repr

/-- Why a write refuses the value it finds. `abort` is the refusal that nobody reports. -/
inductive Err
  | abort
  | text (s : String)
  | tooSoon (next : ℤ)
  deriving DecidableEq, Repr

/-- `runCycle` starts an epoch. -/
def startBarrier (nonce : Bytes) (tolerate : Bool) (interval now : ℤ) (st : GCState) :
    Except Err GCState :=
  if st.phase = .barrier ∨ st.phase = .mark ∨ st.phase = .sweep then
    .error (.text "an epoch is in progress")
  else if st.hold then .error (.text "gc is on hold (recovery); clear with gc-hold")
  else if now - st.barrierAt < interval then .error (.tooSoon (st.barrierAt + interval))
  else .ok { st with
    epoch := st.epoch + 1
    phase := .barrier
    barrierAt := now
    acked := []
    markDone := false
    sweepDone := []
    sweepWave := 0
    nonce := nonce
    marked := []
    error := ""
    missing := []
    tolerate := tolerate
    garbage := 0 }

/-- `handleBarrier` acknowledges. -/
def ack (node : NodeID) (epoch : ℕ) (st : GCState) : Except Err GCState :=
  if st.epoch ≠ epoch ∨ st.phase ≠ .barrier then .error (.text "barrier phase over")
  else .ok { st with acked := if node ∈ st.acked then st.acked else st.acked ++ [node] }

/-- `runCycle` closes the barrier. -/
def freeze (epoch : ℕ) (placement : Bytes) (now : ℤ) (st : GCState) : Except Err GCState :=
  if st.epoch ≠ epoch ∨ st.phase ≠ .barrier then
    .error (.text "epoch changed under the coordinator")
  else .ok { st with phase := .mark, snapshotAt := now, placement := placement }

/-- `runCycle` enters the sweep. -/
def enterSweep (epoch : ℕ) (marked : List NodeStat) (now : ℤ) (st : GCState) :
    Except Err GCState :=
  if st.epoch ≠ epoch ∨ st.phase ≠ .mark then
    .error (.text "epoch changed under the coordinator")
  else .ok { st with
    markDone := true
    marked := marked
    phase := .sweep
    sweepWave := 1
    snapshotAt := now }

/-- A sweep that had no mark to go by reports. -/
def reportNoMark (node : NodeID) (epoch : ℕ) (st : GCState) : Except Err GCState :=
  if st.epoch ≠ epoch ∨ st.phase ≠ .sweep then .error .abort
  else .ok { st with sweepDone := st.sweepDone ++ [{ id := node, noMark := true }] }

/-- A sweep reports, once. -/
def reportSweep (stat : NodeStat) (epoch : ℕ) (st : GCState) : Except Err GCState :=
  if st.epoch ≠ epoch ∨ st.phase ≠ .sweep then .error .abort
  else if st.sweepDone.any (·.id = stat.id) then .error .abort
  else .ok { st with sweepDone := st.sweepDone ++ [stat] }

/-- `observeSweep` closes the epoch. -/
def complete (epoch : ℕ) (st : GCState) : Except Err GCState :=
  if st.epoch ≠ epoch ∨ st.phase ≠ .sweep then .error .abort
  else .ok { st with phase := .idle, last := st.sweepDone, lastOK := st.epoch }

/-- `observeSweep` releases the next wave. -/
def releaseWave (epoch : ℕ) (st : GCState) : Except Err GCState :=
  if st.epoch ≠ epoch ∨ st.phase ≠ .sweep then .error .abort
  else .ok { st with sweepWave := st.sweepWave + 1 }

/-- A coordinator gives the epoch up, before the sweep. -/
def abort (epoch : ℕ) (reason : String) (st : GCState) : Except Err GCState :=
  if st.epoch ≠ epoch ∨ st.phase = .idle ∨ st.phase = .sweep then .error .abort
  else .ok { st with phase := .aborted, error := reason }

/-- The operator has the last complete epoch swept again. -/
def resweep (garbage : ℚ) (now : ℤ) (st : GCState) : Except Err GCState :=
  if st.phase ≠ .idle ∨ st.lastOK = 0 then .error (.text "no completed epoch to re-sweep")
  else .ok { st with
    epoch := st.lastOK
    phase := .sweep
    sweepDone := []
    sweepWave := 1
    garbage := garbage
    snapshotAt := now }

/-- The writes of the register, with their arguments. -/
inductive Write
  | startBarrier (nonce : Bytes) (tolerate : Bool) (interval now : ℤ)
  | ack (node : NodeID) (epoch : ℕ)
  | freeze (epoch : ℕ) (placement : Bytes) (now : ℤ)
  | missing (keys : List Bytes)
  | enterSweep (epoch : ℕ) (marked : List NodeStat) (now : ℤ)
  | reportNoMark (node : NodeID) (epoch : ℕ)
  | reportSweep (stat : NodeStat) (epoch : ℕ)
  | complete (epoch : ℕ)
  | releaseWave (epoch : ℕ)
  | abort (epoch : ℕ) (reason : String)
  | resweep (garbage : ℚ) (now : ℤ)
  | hold (pause : Bool)
  | restore (now : ℤ)
  deriving DecidableEq, Repr

/-- The change function each of them hands to `CASGC`. -/
def Write.apply : Write → GCState → Except Err GCState
  | .startBarrier nonce tolerate interval now => Gc.startBarrier nonce tolerate interval now
  | .ack node epoch => Gc.ack node epoch
  | .freeze epoch placement now => Gc.freeze epoch placement now
  | .missing keys => fun st => .ok { st with missing := keys }
  | .enterSweep epoch marked now => Gc.enterSweep epoch marked now
  | .reportNoMark node epoch => Gc.reportNoMark node epoch
  | .reportSweep stat epoch => Gc.reportSweep stat epoch
  | .complete epoch => Gc.complete epoch
  | .releaseWave epoch => Gc.releaseWave epoch
  | .abort epoch reason => Gc.abort epoch reason
  | .resweep garbage now => Gc.resweep garbage now
  | .hold pause => fun st => .ok { st with hold := pause }
  | .restore now => fun st => .ok { st with barrierAt := now, hold := true }

/-- The values of the register along a list of writes. -/
def values (ws : List Write) : List GCState := Log.states Write.apply {} ws

end Dstore.Gc

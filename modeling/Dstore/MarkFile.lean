import Dstore.Index
import Dstore.Pins
import Dstore.Placement
import Dstore.Lib.Codec

/-!
# The file a mark is kept in

When its mark is done a node writes it to a file: the length of a header in four bytes, the header,
and then the marked keys, in whatever order the map gives them. What is eligible is scanned from the
packs again when the file is read.

The view and the encodings are parameters; `fits` says that the view came in one frame, and that the
header adds at most 64 bytes to it.
-/

namespace Dstore.MarkFile

/-- A 32-byte key. -/
abbrev Key := Placement.NodeID

/-- The header of the file. -/
structure Header where
  epoch : UInt64
  count : UInt64
  eligBelow : UInt64
  view : Bytes
  deriving DecidableEq

/-- The largest frame a view comes in. -/
def maxFrame : ℕ := 16 * 2 ^ 20

/-- The encodings of the header and of the view. -/
structure Formats (V : Type) where
  header : Codec Header
  view : Codec V
  header_le : ∀ h, (header.enc h).length ≤ h.view.length + 64

variable {V : Type}

/-- A mark that is done, as far as the file keeps it. -/
structure MarkState (F : Formats V) where
  epoch : UInt64
  count : UInt64
  eligBelow : UInt64
  view : V
  eligible : Key → Option ℕ
  marked : List Key
  fits : (F.view.enc view).length ≤ maxFrame

/-- What a sweep needs from the mark; here `eligBelow` is that of the count before. -/
structure SweepInput (V : Type) where
  epoch : UInt64
  count : UInt64
  eligBelow : ℕ
  view : V
  eligible : Key → Option ℕ
  marked : List Key
  overflow : Bool := false

/-- The bound of the barrier before, 0 where its record is gone. -/
def boundBefore (history : UInt64 → Option Pins.BarrierRecord) (count : UInt64) : ℕ :=
  match history (count - 1) with
  | some prev => prev.eligibleBelow
  | none => 0

/-- The input of a sweep from the mark in memory. -/
def sweepInputFor {F : Formats V} (history : UInt64 → Option Pins.BarrierRecord)
    (ms : MarkState F) : SweepInput V where
  epoch := ms.epoch
  count := ms.count
  eligBelow := boundBefore history ms.count
  view := ms.view
  eligible := ms.eligible
  marked := ms.marked

/-- The header of a mark. -/
def MarkState.header {F : Formats V} (ms : MarkState F) : Header :=
  ⟨ms.epoch, ms.count, ms.eligBelow, F.view.enc ms.view⟩

/-- The bytes of the file; `order` is the order in which the map gives the marked keys. -/
def persistMark {F : Formats V} (ms : MarkState F) (order : List Key) : Bytes :=
  let hdr := F.header.enc ms.header
  beBytes 4 hdr.length ++ hdr ++ order.flatMap Subtype.val

/-- The keys of the file, 32 bytes each; what is left over is ignored. -/
def readKeys (rest : Bytes) : List Key :=
  if h : 32 ≤ rest.length then
    ⟨rest.take 32, by rw [List.length_take]; omega⟩ :: readKeys (rest.drop 32)
  else []
termination_by rest.length
decreasing_by rw [List.length_drop]; omega

/-- Read a file back and scan the packs again, each as far as its index can be read. The slice of
the header is cut with 32-bit sums, and fails where it does not lie in the file. -/
def loadMark (F : Formats V) (segs : List (Segment Key)) (fails : ℕ → Option ℕ)
    (history : UInt64 → Option Pins.BarrierRecord) (b : Bytes) : Option (SweepInput V) :=
  if b.length < 4 then none
  else
    let stop := (4 + Placement.bigEndian (b.take 4)) % 2 ^ 32
    if stop < 4 ∨ b.length < stop then none
    else
      match F.header.dec ((b.take stop).drop 4) with
      | none => none
      | some hdr =>
        match F.view.dec hdr.view with
        | none => none
        | some view => some {
            epoch := hdr.epoch
            count := hdr.count
            eligBelow := boundBefore history hdr.count
            view := view
            eligible := scanEligible hdr.eligBelow.toNat fails segs
            marked := readKeys (b.drop stop) }

/-- The input as the sweep's predicate takes it: the pins are held against the count before, which
wraps at zero. -/
def SweepInput.toPins (inWriteSet : V → Key → Bool) (si : SweepInput V) : Pins.SweepInput Key where
  epoch := si.epoch.toNat
  count := (si.count - 1).toNat + 1
  eligBelow := si.eligBelow
  owned := inWriteSet si.view
  eligible := si.eligible
  marked := si.marked
  rootsAt := 0
  overflow := si.overflow

end Dstore.MarkFile

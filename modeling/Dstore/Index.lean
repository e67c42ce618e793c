import Dstore.Lib.Byte

/-!
# What a mark finds in the packs

A mark takes in the indexes of the sealed packs below its bound, and so does a mark that is read
back. The error of a scan is dropped: a pack whose index cannot be read to its end counts as one
that ends where the scan stopped.
-/

namespace Dstore

variable {κ : Type}

/-- A sealed pack: its id, and the keys its index lists. -/
structure Segment (κ : Type) where
  id : ℕ
  keys : List κ
  deriving DecidableEq, Repr

/-- The keys `ScanIndex` goes through: all, or those before the one it fails at. -/
def Segment.scanIndex (seg : Segment κ) : Option ℕ → List κ
  | none => seg.keys
  | some n => seg.keys.take n

/-- The records found in packs below a bound, with their packs: a later pack takes the place of an
earlier one. `fails` says of each pack where its scan fails, if it does. -/
def scanEligible [DecidableEq κ] (below : ℕ) (fails : ℕ → Option ℕ) (segs : List (Segment κ)) :
    κ → Option ℕ :=
  segs.foldl (fun eligible seg =>
    if below ≤ seg.id then eligible
    else (seg.scanIndex (fails seg.id)).foldl
      (fun eligible k => Function.update eligible k (some seg.id)) eligible)
    fun _ => none

end Dstore

import Dstore.Listing

/-!
# The roots snapshot

`RefsSnapshot` scans the registers of all references, page by page, and runs the identity transition
on each register that the scan calls undecided, so that every root is a decided value.
-/

namespace Dstore.Snapshot

open Listing

/-- What one turn of the loop is given: the view and the replies of its scan, and the rows that
`Settle` returned. A register without one is a `Settle` that failed. -/
structure PageIn where
  view : View
  replies : List (NodeID × Option Answer)
  settled : List (Bytes × Row)
  deriving DecidableEq, Repr

/-- What `Scan` makes of the replies. -/
def PageIn.scanned (p : PageIn) : ScanOut := scan p.view (p.replies.map Prod.snd)

/-- The row that is used for a register: the scanned one, or the settled one if that is undecided.
-/
def PageIn.row (p : PageIn) (r : MergedRow) : Option Row :=
  if r.undecided then (p.settled.find? fun e => e.1 = r.reg).map Prod.snd else some r.row

/-- The row a finished `Settle` stands for. -/
def settledRow (res : Result) : Row := ⟨res.ballot, res.value, res.hasValue⟩

variable {ρ : Type} (C : Codecs ρ)

/-- The loop over the rows of one page: a failed `Settle` fails the page, an absent reference is
left out. -/
def entries (p : PageIn) : List MergedRow → Option (List RefEntry)
  | [] => some []
  | r :: rs =>
    match p.row r with
    | none => none
    | some row => (entries p rs).map fun out =>
      match liveRef C row with
      | none => out
      | some rv => ⟨r.reg.drop prefixRef.length, rv, false⟩ :: out

/-- `RefsSnapshot`, from what its turns are given; `none` is an error. -/
def refsSnapshot : List PageIn → Option (List RefEntry)
  | [] => none
  | p :: ps =>
    match p.scanned with
    | .page rows next =>
      match entries C p rows, next with
      | none, _ => none
      | some out, none => some out
      | some out, some _ => (refsSnapshot ps).map (out ++ ·)
    | _ => none

end Dstore.Snapshot

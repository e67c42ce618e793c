import Dstore.System

/-!
# Reads

`Read` returns the row that the first majority of replies report one accepted ballot for, and
otherwise settles the register. `Scan` merges one page of rows from every voter that answers, by the
highest accepted ballot, and marks a row undecided where the voters disagree.
-/

namespace Dstore

/-- How a fast read ends. `settle` leaves it to a round. -/
inductive ReadOut
  | row (r : Row)
  | settle
  | stale (v : View)
  deriving DecidableEq, Repr

/-- The rows of a majority, once it is there: their row if they agree on the accepted ballot. -/
def agree : List Row → ReadOut
  | [] => .settle
  | r :: rest => if ∀ r' ∈ rest, r'.accepted = r.accepted then .row r else .settle

/-- The loop over the replies to a read, with the rows it has. -/
def read (v : View) : List (Option Answer) → List Row → ReadOut
  | [], rows => if rows.length < v.quorum then .settle else agree rows
  | r :: rs, rows =>
    match classify v r with
    | .error (.stale nv) => .stale nv
    | .ok (.readReply accepted _ value hasValue) =>
      let rows := rows ++ [Row.mk accepted value hasValue]
      if v.quorum ≤ rows.length then agree rows else read v rs rows
    | _ => read v rs rows

/-- A voter's page. -/
structure Page where
  rows : List ScanRow
  more : Bool
  next : Bytes
  deriving DecidableEq, Repr

/-- The pages of the voters that answer. -/
def pages (v : View) : List (Option Answer) → Except View (List Page)
  | [] => .ok []
  | r :: rs =>
    match classify v r with
    | .error (.stale nv) => .error nv
    | .ok (.scanReply rows more next) => (pages v rs).map (⟨rows, more, next⟩ :: ·)
    | _ => pages v rs

/-- Where the merged page ends: the smallest last row of the voters that have more. -/
def cut (ps : List Page) : Option Bytes :=
  ps.foldl (fun c p => if p.more ∧ p.next ≠ [] ∧ ∀ k ∈ c, p.next < k then some p.next else c) none

/-- What the merge keeps of a register: the newest row, and what it takes to call it decided. -/
structure Merge where
  row : Row
  promised : Ballot
  count : ℕ
  disagree : Bool
  stub : Bool
  deriving DecidableEq, Repr

/-- Merges in one voter's row. -/
def mergeRow (merged : KV Bytes Merge) (sr : ScanRow) : KV Bytes Merge :=
  match merged.get sr.reg with
  | none => merged.set sr.reg
      ⟨⟨sr.accepted, sr.value, sr.hasValue⟩, sr.promised, 1, false, sr.accepted.isZero⟩
  | some a => merged.set sr.reg
      { row := if a.row.accepted < sr.accepted then ⟨sr.accepted, sr.value, sr.hasValue⟩ else a.row
        promised := max a.promised sr.promised
        count := a.count + 1
        disagree := a.disagree || sr.accepted ≠ a.row.accepted
        stub := a.stub || sr.accepted.isZero }

/-- The rows up to the cut. -/
def mergeInput (ps : List Page) : List ScanRow :=
  (ps.flatMap Page.rows).filter fun sr => ∀ k ∈ cut ps, sr.reg ≤ k

/-- A row of the merged page. -/
structure MergedRow where
  reg : Bytes
  row : Row
  undecided : Bool
  deriving DecidableEq, Repr

/-- The merged page. A row is undecided unless all `n` voters have it at one ballot and none has
promised more. -/
def mergedRows (n : ℕ) (merged : KV Bytes Merge) : List MergedRow :=
  merged.entries.map fun (reg, a) =>
    ⟨reg, a.row, a.disagree || a.count < n || a.row.accepted < a.promised || a.stub⟩

/-- How a scan ends. -/
inductive ScanOut
  | page (rows : List MergedRow) (next : Option Bytes)
  | unavailable
  | stale (v : View)
  deriving DecidableEq, Repr

/-- Merges the pages of a majority. -/
def scan (v : View) (replies : List (Option Answer)) : ScanOut :=
  match pages v replies with
  | .error nv => .stale nv
  | .ok ps =>
    if ps.length < v.quorum then .unavailable
    else .page (mergedRows ps.length ((mergeInput ps).foldl mergeRow .empty)) (cut ps)

end Dstore

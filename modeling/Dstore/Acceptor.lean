import Dstore.View
import Dstore.Lib.KV

/-!
# The acceptor

An acceptor answers catalog messages from its rows, the purge floor, the installed view, the sync
marker and the retired flag. It serves proposals at the installed epoch only, and refuses to report
its state once retired or where its marker disagrees with the view.
-/

namespace Dstore

/-- What an acceptor keeps for a register. Without `hasValue` an accepted row is a tombstone. -/
structure AcceptorRow where
  promised : Ballot := ⊥
  accepted : Ballot := ⊥
  value : Bytes := []
  hasValue : Bool := false
  deriving DecidableEq, Repr

/-- A row with its register, as scans and seeds carry it. -/
structure ScanRow where
  reg : Bytes
  promised : Ballot
  accepted : Ballot
  value : Bytes
  hasValue : Bool
  deriving DecidableEq, Repr

/-- The operations of a catalog message. -/
inductive Req
  | prepare (reg : Bytes) (ballot : Ballot)
  | accept (reg : Bytes) (ballot : Ballot) (value : Bytes) (hasValue : Bool) (notAfter : ℤ)
  | read (reg : Bytes)
  | scan (pre after : Bytes) (limit : ℤ)
  | install (view : View)
  | marker (since : ℕ)
  | seed (rows : List ScanRow)
  | purge (reg : Bytes) (ballot : Ballot)
  deriving DecidableEq, Repr

/-- A catalog message, with the coordinates of the sender's view. -/
structure Msg where
  incarnation : ℕ
  epoch : ℕ
  req : Req
  deriving DecidableEq, Repr

/-- The error codes an acceptor answers with. -/
inductive Code
  | staleView
  | needView
  | retired
  | amnesiac
  | badRequest
  | expired
  deriving DecidableEq, Repr

/-- The replies. An error may carry the installed view, for a sender that is behind. -/
inductive Reply
  | err (code : Code) (text : String) (view : Option View)
  | promise (accepted : Ballot) (value : Bytes) (hasValue : Bool)
  | conflict (ballot : Ballot)
  | accepted
  | readReply (accepted promised : Ballot) (value : Bytes) (hasValue : Bool)
  | scanReply (rows : List ScanRow) (more : Bool) (next : Bytes)
  | installed
  | ok
  deriving DecidableEq, Repr

/-- A reply with the coordinates of the acceptor's view. -/
structure Answer where
  incarnation : ℕ
  epoch : ℕ
  reply : Reply
  deriving DecidableEq, Repr

/-- The bytes of an encoded ballot. -/
def ballotSize : ℕ := 40

/-- The bytes at which a page of a scan is cut. -/
def maxPageBytes : ℕ := 4 * 2 ^ 20

/-- One node's acceptor. Every field is kept in the database and written there before it takes
effect, so a restart changes none. -/
structure Acceptor where
  self : NodeID
  installed : Option View := none
  marker : Option ℕ := none
  retired : Bool := false
  floor : Ballot := ⊥
  rows : KV Bytes AcceptorRow := .empty

namespace Acceptor

/-- Makes the acceptor a voter since an epoch; a retired one serves again. -/
def setMarker (a : Acceptor) (since : ℕ) : Acceptor :=
  { a with marker := some since, retired := false }

/-- Adopt `v` if it is not older than the installed view. A view that does not list this node as
a voter retires an acceptor that has served as one, and wipes its rows and floor. -/
def install (a : Acceptor) (v : View) : Acceptor :=
  let older := match a.installed with
    | none => false
    | some cur =>
      match cur.compare v.incarnation v.epoch with
      | .gt => true
      | .eq => decide (v.version ≤ cur.version)
      | .lt => false
  if older then a
  else if !v.isVoter a.self && !a.retired && a.marker.isSome then
    { a with installed := some v, retired := true, rows := .empty, floor := ⊥ }
  else { a with installed := some v }

/-- Whether the marker disagrees with what the installed view says about this acceptor. -/
def amnesiac (a : Acceptor) : Bool :=
  match a.installed with
  | none => false
  | some v =>
    match v.voters.find? fun vo => vo.id = a.self with
    | none => false
    | some vo => a.marker ≠ some vo.since

/-- The refusal of an acceptor that has lost its state or given it up. -/
def refuseIfForgetful (a : Acceptor) : Option Reply :=
  if a.retired then some (.err .retired "acceptor retired" none)
  else if a.amnesiac then
    some (.err .amnesiac "acceptor state does not match the view" none)
  else none

/-- The row of a register, with the zero row where there is none. -/
def row (a : Acceptor) (reg : Bytes) : AcceptorRow := (a.rows.get reg).getD {}

/-- What the acceptor has promised on `reg`: its row's promise, or the purge floor where it has
no row. -/
def promisedOn (a : Acceptor) (reg : Bytes) : Ballot :=
  match a.rows.get reg with
  | some r => r.promised
  | none => a.floor

/-- Promises a ballot above all it has promised, and tells what it has accepted. -/
def prepare (a : Acceptor) (reg : Bytes) (b : Ballot) : Acceptor × Reply :=
  match a.refuseIfForgetful with
  | some r => (a, r)
  | none =>
    if b.isZero then (a, .err .badRequest "bad ballot" none)
    else if b ≤ a.promisedOn reg then (a, .conflict (a.promisedOn reg))
    else
      let r := a.row reg
      ({ a with rows := a.rows.set reg { r with promised := b } },
        .promise r.accepted r.value r.hasValue)

/-- Accepts a value at a ballot not below what it has promised and accepted. Unlike the other
operations it is served with a marker that disagrees with the view. -/
def accept (a : Acceptor) (now : ℤ) (reg : Bytes) (b : Ballot) (value : Bytes) (hasValue : Bool)
    (notAfter : ℤ) : Acceptor × Reply :=
  if a.retired then (a, .err .retired "acceptor retired" none)
  else if b.isZero then (a, .err .badRequest "bad ballot" none)
  else if notAfter ≠ 0 ∧ notAfter < now then (a, .err .expired "accept past not_after" none)
  else if b < a.promisedOn reg then (a, .conflict (a.promisedOn reg))
  else if b < (a.row reg).accepted then (a, .conflict (a.row reg).accepted)
  else ({ a with rows := a.rows.set reg ⟨b, b, value, hasValue⟩ }, .accepted)

/-- The row of a register, for a read that needs no round. -/
def read (a : Acceptor) (reg : Bytes) : Reply :=
  match a.refuseIfForgetful with
  | some r => r
  | none =>
    let r := a.row reg
    .readReply r.accepted r.promised r.value r.hasValue

/-- The rows of one page, cut once it holds `limit` rows or `maxPageBytes` bytes, and whether any
were left. -/
def page (limit : ℕ) : List (Bytes × AcceptorRow) → ℕ → ℕ → List ScanRow × Bool
  | [], _, _ => ([], false)
  | (reg, r) :: es, n, size =>
    if limit ≤ n ∨ maxPageBytes ≤ size then ([], true)
    else
      let rest := page limit es (n + 1) (size + reg.length + r.value.length + 2 * ballotSize)
      (⟨reg, r.promised, r.accepted, r.value, r.hasValue⟩ :: rest.1, rest.2)

/-- A page of the rows with a prefix, past `after`. -/
def scan (a : Acceptor) (pre after : Bytes) (limit : ℤ) : Reply :=
  match a.refuseIfForgetful with
  | some r => r
  | none =>
    let limit := if limit ≤ 0 ∨ 100000 < limit then 100000 else limit.toNat
    let lower := if after = [] then pre else after ++ [0]
    let upper := if pre = [] then [255] else pre ++ [255, 255, 255, 255]
    let p := page limit (a.rows.scan lower upper) 0 0
    .scanReply p.1 p.2 ((p.1.getLast?.map ScanRow.reg).getD [])

/-- Delete a row whose accepted ballot is exactly `b`, raising the floor; where a proposal is in
flight keep its promise as a stub. -/
def purge (a : Acceptor) (reg : Bytes) (b : Ballot) : Acceptor × Reply :=
  if b.isZero then (a, .err .badRequest "bad ballot" none)
  else
    match a.rows.get reg with
    | none => (a, .ok)
    | some r =>
      if r.accepted ≠ b then (a, .ok)
      else if r.promised = b then
        ({ a with rows := a.rows.delete reg, floor := max a.floor b }, .ok)
      else ({ a with rows := a.rows.set reg { promised := r.promised } }, .ok)

/-- Takes over a row of the old voters where it is newer than the acceptor's own. -/
def seedRow (a : Acceptor) (rows : KV Bytes AcceptorRow) (sr : ScanRow) : KV Bytes AcceptorRow :=
  let cur := a.row sr.reg
  if sr.accepted.isZero ∨ sr.accepted ≤ cur.accepted then rows
  else rows.set sr.reg ⟨max cur.promised sr.accepted, sr.accepted, sr.value, sr.hasValue⟩

/-- Takes over rows of the old voters, as part of a voter change. -/
def seed (a : Acceptor) (rows : List ScanRow) : Acceptor × Reply :=
  ({ a with rows := rows.foldl a.seedRow a.rows }, .ok)

/-- All rows, as a voter change copies them. -/
def allRows (a : Acceptor) : List ScanRow :=
  (a.rows.scan [] [255]).map fun e =>
    ⟨e.1, e.2.promised, e.2.accepted, e.2.value, e.2.hasValue⟩

/-- The operations that are served at the installed epoch only. -/
def serve (a : Acceptor) (now : ℤ) : Req → Acceptor × Reply
  | .prepare reg b => a.prepare reg b
  | .accept reg b value hasValue notAfter => a.accept now reg b value hasValue notAfter
  | .read reg => (a, a.read reg)
  | .scan pre after limit => (a, a.scan pre after limit)
  | _ => (a, .err .badRequest "unknown catalog op" none)

/-- Answer a message at the installed epoch, with the installed view for a sender behind it. -/
def gate (a : Acceptor) (now : ℤ) (m : Msg) : Acceptor × Reply :=
  match a.installed with
  | none => (a, .err .needView "no view installed" none)
  | some inst =>
    match inst.compare m.incarnation m.epoch with
    | .gt => (a, .err .staleView "" (some inst))
    | .lt => (a, .err .needView "" none)
    | .eq => a.serve now m.req

/-- The operations of a voter change and the purge are served at any epoch. -/
def dispatch (a : Acceptor) (now : ℤ) (m : Msg) : Acceptor × Reply :=
  match m.req with
  | .install v => (a.install v, .installed)
  | .marker since => (a.setMarker since, .ok)
  | .seed rows => a.seed rows
  | .purge reg b => a.purge reg b
  | _ => a.gate now m

/-- The coordinates of the installed view. -/
def coords (a : Acceptor) : ℕ × ℕ :=
  match a.installed with
  | none => (0, 0)
  | some v => (v.incarnation, v.epoch)

/-- Answer one catalog message. The reply carries the acceptor's `(incarnation, epoch)`. -/
def handle (a : Acceptor) (now : ℤ) (m : Msg) : Acceptor × Answer :=
  let p := a.dispatch now m
  (p.1, ⟨p.1.coords.1, p.1.coords.2, p.2⟩)

end Acceptor

end Dstore

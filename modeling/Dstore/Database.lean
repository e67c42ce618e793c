import Dstore.Gate

/-!
# The acceptor's database

What an acceptor knows is kept in one database, with a copy of all but the rows in memory. What a
message changes is one batch, committed as a whole before the copy changes and the reply is sent.
`OpenAcceptor` reads the copy from the database: after a restart between two messages, and after the
process was killed while it handled one, with the batch committed or not.
-/

namespace Dstore

/-- What is under `m/view`, `m/marker`, `m/retired` and `m/floor`, and the rows under `r/`. -/
structure AcceptorDB where
  view : Option View := none
  marker : Option ℕ := none
  retired : Bool := false
  floor : Option Ballot := none
  rows : KV Bytes AcceptorRow := .empty

/-- A write of a batch. -/
inductive DBWrite
  | setView (v : View)
  | setMarker (since : ℕ)
  | setRetired
  | deleteRetired
  | setFloor (b : Ballot)
  | deleteFloor
  | setRow (reg : Bytes) (r : AcceptorRow)
  | deleteRow (reg : Bytes)
  deriving DecidableEq, Repr

namespace AcceptorDB

def write (db : AcceptorDB) : DBWrite → AcceptorDB
  | .setView v => { db with view := some v }
  | .setMarker since => { db with marker := some since }
  | .setRetired => { db with retired := true }
  | .deleteRetired => { db with retired := false }
  | .setFloor b => { db with floor := some b }
  | .deleteFloor => { db with floor := none }
  | .setRow reg r => { db with rows := db.rows.set reg r }
  | .deleteRow reg => { db with rows := db.rows.delete reg }

/-- A batch, written as a whole. -/
def commit (db : AcceptorDB) (batch : List DBWrite) : AcceptorDB := batch.foldl write db

end AcceptorDB

namespace Acceptor

/-- Whether the installed view covers `v` already. -/
def current (a : Acceptor) (v : View) : Bool := (a.installed.map (·.covers v)).getD false

/-- The batch of `Install`: the view, and for an acceptor that retires the flag, the rows and the
floor. -/
def installBatch (a : Acceptor) (v : View) : List DBWrite :=
  if a.current v then []
  else if a.retires v then
    .setView v :: .setRetired :: ((a.rows.scan [] [255]).map fun e => .deleteRow e.1) ++
      [.deleteFloor]
  else [.setView v]

/-- The batch of a purge. -/
def purgeBatch (a : Acceptor) (reg : Bytes) (b : Ballot) : List DBWrite :=
  if b.isZero then []
  else
    match a.rows.get reg with
    | none => []
    | some r =>
      if r.accepted ≠ b then []
      else if r.promised = b then
        .deleteRow reg :: if a.floor < b then [.setFloor b] else []
      else [.setRow reg { promised := r.promised }]

/-- What a seed writes of a row. -/
def seedWrite (a : Acceptor) (sr : ScanRow) : Option DBWrite :=
  let cur := a.row sr.reg
  if sr.accepted.isZero ∨ sr.accepted ≤ cur.accepted then none
  else
    let promised := if cur.promised < sr.accepted then sr.accepted else cur.promised
    some (.setRow sr.reg ⟨promised, sr.accepted, sr.value, sr.hasValue⟩)

/-- The batch of a message that is served at the installed epoch, by its reply. -/
def rowBatch (a : Acceptor) : Req → Reply → List DBWrite
  | .prepare reg b, .promise _ _ _ => [.setRow reg { a.row reg with promised := b }]
  | .accept reg b value hasValue _, .accepted => [.setRow reg ⟨b, b, value, hasValue⟩]
  | _, _ => []

/-- The batch of a message. -/
def batch (a : Acceptor) (now : ℤ) (m : Msg) : List DBWrite :=
  match m.req with
  | .install v => a.installBatch v
  | .marker since => [.setMarker since, .deleteRetired]
  | .seed rows => rows.filterMap a.seedWrite
  | .purge reg b => a.purgeBatch reg b
  | req => a.rowBatch req (a.gate now m).2

/-- Whether the message retires the acceptor. -/
def retiring (a : Acceptor) (m : Msg) : Bool :=
  match m.req with
  | .install v => !a.current v && a.retires v
  | _ => false

end Acceptor

/-- An acceptor with its database and its copy in memory. -/
structure Server where
  self : NodeID
  db : AcceptorDB
  installed : Option View
  marker : Option ℕ
  retired : Bool
  floor : Ballot

namespace Server

/-- Reads the copy from the database. -/
def openAcceptor (self : NodeID) (db : AcceptorDB) : Server :=
  ⟨self, db, db.view, db.marker, db.retired, db.floor.getD ⊥⟩

/-- The acceptor as its handlers see it: the rows are read from the database. -/
def acc (s : Server) : Acceptor :=
  ⟨s.self, s.installed, s.marker, s.retired, s.floor, s.db.rows⟩

/-- A message is handled, or the process goes down and comes back. -/
inductive Action
  | handle (now : ℤ) (m : Msg)
  /-- The process is killed behind the commit, and started again. -/
  | killed (now : ℤ) (m : Msg)
  | restart
  deriving DecidableEq, Repr

/-- The message an action handles. -/
def Action.msg : Action → Option Msg
  | .handle _ m | .killed _ m => some m
  | .restart => none

/-- A message changes database and copy; a restart reads the copy anew. -/
def step (s : Server) : Action → Option Server
  | .handle now m =>
    let a := (s.acc.dispatch now m).1
    some ⟨s.self, s.db.commit (s.acc.batch now m), a.installed, a.marker, a.retired, a.floor⟩
  | .killed now m => some (openAcceptor s.self (s.db.commit (s.acc.batch now m)))
  | .restart => some (openAcceptor s.self s.db)

end Server

end Dstore

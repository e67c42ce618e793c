import Dstore.Acceptor

/-!
# Watching references

A watch stream keeps, for every name the pattern matches, what it believes its client holds, and
sends only what changes that. It learns of changes from hints, of which all that are queued go into
one frame, and from a listing of the catalog. The client applies the references of a frame to its
map, then the deletions.
-/

namespace Dstore.Watch

variable {ν κ ρ : Type} [LinearOrder ν] [DecidableEq κ]

/-- The pattern, the key of a record that decodes, and what an entry adds to a frame's size. -/
structure Params (ν κ ρ : Type) where
  pat : ν → Bool
  decode : ρ → Option κ
  infoSize : ν → ρ → Ballot → ℕ
  nameSize : ν → ℕ

/-- What the client is believed to hold for a name: the key, none once it was told that the name is
gone, and the version the belief rests on, zero for a key the client reported. -/
structure RefState (κ : Type) where
  key : Option κ
  version : Ballot
  deriving DecidableEq, Repr

/-- One message of the stream. -/
structure Frame (ν κ : Type) where
  refs : List (ν × κ) := []
  deleted : List ν := []
  deriving DecidableEq, Repr

/-- A committed write; its version may not parse, and a deletion has no record. -/
structure Hint (ν ρ : Type) where
  name : ν
  record : Option ρ
  version : Option Ballot
  deriving DecidableEq, Repr

/-- A row of a listing. -/
structure Row (ρ : Type) where
  version : Ballot
  record : ρ
  deriving DecidableEq, Repr

/-- A watch stream: what it believes, the frame it fills, and what it has sent. -/
structure RefWatch (ν κ : Type) [LinearOrder ν] where
  known : KV ν (RefState κ)
  batch : Frame ν κ := {}
  size : ℕ := 0
  sent : List (Frame ν κ) := []

namespace RefWatch

variable (P : Params ν κ ρ) (w : RefWatch ν κ)

/-- `flush`: an empty frame is not sent. -/
def flush : RefWatch ν κ :=
  if w.batch.refs = [] ∧ w.batch.deleted = [] then w
  else { w with batch := {}, size := 0, sent := w.sent ++ [w.batch] }

/-- A reference goes into the frame, which is sent when it is full. -/
def queue (name : ν) (record : ρ) (version : Ballot) (key : κ) : RefWatch ν κ :=
  let w := { w with
    batch := { w.batch with refs := w.batch.refs ++ [(name, key)] }
    size := w.size + P.infoSize name record version }
  if maxPageBytes < w.size then w.flush else w

/-- A deletion goes into the frame, which is sent when it is full. -/
def queueDeleted (name : ν) : RefWatch ν κ :=
  let w := { w with
    batch := { w.batch with deleted := w.batch.deleted ++ [name] }
    size := w.size + P.nameSize name }
  if maxPageBytes < w.size then w.flush else w

/-- The stream after its belief of a name has changed. -/
def setKnown (name : ν) (st : RefState κ) : RefWatch ν κ :=
  { w with known := w.known.set name st }

/-- A put is believed, and sent if its key is news. -/
def learn (name : ν) (record : ρ) (version : Ballot) (key : κ) : RefWatch ν κ :=
  let had := (w.known.get name).any fun st => st.key = some key
  let w := w.setKnown name ⟨some key, version⟩
  if had then w else w.queue P name record version key

/-- `applyHint`: a hint no newer than the belief is ignored, and so is one that does not decode. -/
def applyHint (h : Hint ν ρ) : RefWatch ν κ :=
  match h.version with
  | none => w
  | some version =>
    if version.isZero then w
    else if (w.known.get h.name).any fun st => !st.version.isZero && version ≤ st.version then w
    else
      match h.record with
      | none =>
        -- the deletion is remembered, so that a delayed older put is ignored
        let had := (w.known.get h.name).any fun st => st.key.isSome
        let w := w.setKnown h.name ⟨none, version⟩
        if had then w.queueDeleted P h.name else w
      | some record =>
        match P.decode record with
        | none => w
        | some key => w.learn P h.name record version key

/-- One entry of a listing, unless the belief is newer. -/
def reconcileEntry (e : ν × Row ρ) : RefWatch ν κ :=
  if P.pat e.1 then
    match P.decode e.2.record with
    | none => w
    | some key =>
      -- a hint got ahead of a lagging row
      if (w.known.get e.1).any fun st => !st.version.isZero && e.2.version < st.version then w
      else w.learn P e.1 e.2.record e.2.version key
  else w

/-- A name that the listing does not have is forgotten, and its deletion sent. -/
def forget (seen : ν → Bool) (name : ν) : RefWatch ν κ :=
  match w.known.get name with
  | none => w
  | some st =>
    if seen name then w
    else
      let w := { w with known := w.known.delete name }
      if st.key.isSome then w.queueDeleted P name else w

end RefWatch

/-- The listing has the name with a record that decodes. -/
def seen (P : Params ν κ ρ) (listing : KV ν (Row ρ)) (name : ν) : Bool :=
  P.pat name && (listing.get name).any fun row => (P.decode row.record).isSome

/-- `reconcile`: the entries first, then what was not among them. -/
def RefWatch.reconcile (P : Params ν κ ρ) (w : RefWatch ν κ) (listing : KV ν (Row ρ)) :
    RefWatch ν κ :=
  let w := listing.entries.foldl (RefWatch.reconcileEntry P) w
  ((w.known.entries.map Prod.fst).foldl (fun w name => w.forget P (seen P listing) name) w).flush

/-- What a stream does: it drains hints into a frame, compares with a listing, or gives a listing
up after some of its entries. -/
inductive Action (ν ρ : Type) [LinearOrder ν]
  | hints (hs : List (Hint ν ρ))
  | reconcile (listing : KV ν (Row ρ))
  | failed (entries : List (ν × Row ρ))

/-- What one action makes of the stream. -/
def act (P : Params ν κ ρ) (w : RefWatch ν κ) : Action ν ρ → RefWatch ν κ
  | .hints hs => ((hs.filter fun h => P.pat h.name).foldl (RefWatch.applyHint P) w).flush
  | .reconcile listing => w.reconcile P listing
  | .failed entries => entries.foldl (RefWatch.reconcileEntry P) w

/-- The stream of a client that reports the names and keys it holds; a key may be empty. -/
def opened (P : Params ν κ ρ) (held : KV ν (Option κ)) : RefWatch ν κ where
  known := held.entries.foldl
    (fun known e => if P.pat e.1 ∧ e.2.isSome then known.set e.1 ⟨e.2, ⊥⟩ else known) .empty

/-- The stream after a sequence of actions. -/
def run (P : Params ν κ ρ) (held : KV ν (Option κ)) (acts : List (Action ν ρ)) : RefWatch ν κ :=
  acts.foldl (act P) (opened P held)

/-- What the client makes of a frame. -/
def Frame.apply (f : Frame ν κ) (state : KV ν (Option κ)) : KV ν (Option κ) :=
  f.deleted.foldl KV.delete (f.refs.foldl (fun state r => state.set r.1 (some r.2)) state)

/-- What the client holds after all that was sent. -/
def RefWatch.client (w : RefWatch ν κ) (held : KV ν (Option κ)) : KV ν (Option κ) :=
  w.sent.foldl (fun state f => f.apply state) held

end Dstore.Watch

import Dstore.Acceptor

/-!
# The proposer

`Propose` runs rounds against the voters of a view: a prepare round at a fresh ballot, the change
function on the highest accepted row found, then an accept round. A round returns on the first reply
that decides it, and when every voter has been heard. A call is the state of one `Propose` between
two replies.
-/

namespace Dstore

/-- What a prepare round finds: the row with the highest accepted ballot. -/
structure Row where
  accepted : Ballot := ⊥
  value : Bytes := []
  hasValue : Bool := false
  deriving DecidableEq, Repr

/-- What a `Propose` committed, or found. -/
structure Result where
  ballot : Ballot := ⊥
  value : Bytes := []
  hasValue : Bool := false
  deriving DecidableEq, Repr

/-- What may be wrong with one reply. -/
inductive ReplyErr
  | call
  | decode
  | stale (v : View)
  | expired
  | remote (code : Code) (text : String)
  | epoch (inc epoch roundInc roundEpoch : ℕ)
  | conflict (b : Ballot)
  deriving DecidableEq, Repr

/-- How a round fails. Only an accept round's outcome may be unknown. -/
inductive RoundErr
  | stale (v : View)
  | conflict (b : Ballot)
  | expired
  | unknown (accepted quorum : ℕ)
  | unavailable (first : Option ReplyErr)
  deriving DecidableEq, Repr

/-- Turn an acceptor's reply into an outcome for the round; `none` is a call that failed. -/
def classify (v : View) : Option Answer → Except ReplyErr Reply
  | none => .error .call
  | some m =>
    match m.reply with
    | .err .staleView _ none => .error .decode
    | .err .staleView _ (some nv) => .error (.stale nv)
    | .err .expired _ _ => .error .expired
    | .err code text _ => .error (.remote code text)
    | r =>
      if m.incarnation ≠ v.incarnation ∨ m.epoch ≠ v.epoch then
        .error (.epoch m.incarnation m.epoch v.incarnation v.epoch)
      else
        match r with
        | .conflict b => .error (.conflict b)
        | r => .ok r

/-- What a loop over replies does with one: go on, or return. -/
inductive Loop (σ ρ : Type)
  | next (s : σ)
  | ret (r : ρ)
  deriving DecidableEq, Repr

/-- The prepare loop between two replies. -/
structure PrepareLoop where
  best : Row := {}
  promises : ℕ := 0
  firstErr : Option ReplyErr := none
  deriving DecidableEq, Repr

/-- The accept loop between two replies. -/
structure AcceptLoop where
  accepted : ℕ := 0
  firstErr : Option ReplyErr := none
  deriving DecidableEq, Repr

/-- A reply of a prepare round. -/
def PrepareLoop.reply (l : PrepareLoop) (v : View) (r : Option Answer) :
    Loop PrepareLoop (Except RoundErr Row) :=
  match classify v r with
  | .error (.stale nv) => .ret (.error (.stale nv))
  | .error (.conflict b) => .ret (.error (.conflict b))
  | .error e => .next { l with firstErr := l.firstErr.or (some e) }
  | .ok (.promise accepted value hasValue) =>
    let best := if l.promises = 0 ∨ l.best.accepted < accepted then ⟨accepted, value, hasValue⟩
      else l.best
    if v.quorum ≤ l.promises + 1 then .ret (.ok best)
    else .next { l with best := best, promises := l.promises + 1 }
  | .ok _ => .next l

/-- The prepare loop when every voter has been heard without a quorum. -/
def PrepareLoop.close (l : PrepareLoop) : Except RoundErr Row := .error (.unavailable l.firstErr)

/-- A reply of an accept round. -/
def AcceptLoop.reply (l : AcceptLoop) (v : View) (r : Option Answer) :
    Loop AcceptLoop (Except RoundErr Unit) :=
  match classify v r with
  | .error (.stale nv) => .ret (.error (.stale nv))
  | .error (.conflict b) => .ret (.error (.conflict b))
  | .error .expired => .ret (.error .expired)
  | .error e => .next { l with firstErr := l.firstErr.or (some e) }
  | .ok .accepted =>
    if v.quorum ≤ l.accepted + 1 then .ret (.ok ())
    else .next { l with accepted := l.accepted + 1 }
  | .ok _ => .next l

/-- The accept loop when every voter has been heard: unknown where some accepted. -/
def AcceptLoop.close (l : AcceptLoop) (v : View) : Except RoundErr Unit :=
  if 0 < l.accepted then .error (.unknown l.accepted v.quorum)
  else .error (.unavailable l.firstErr)

/-- A change function: from the variables it captured, the current row and the ballot, the value
to commit, or an error that ends the proposal without an accept round. -/
abbrev ChangeFunc (σ ε : Type) := σ → Row → Ballot → σ × Except ε (Bytes × Bool)

/-- How `Propose` may fail: with its change function's error, a round's, the context's, or with
no view or no ballot to start from. -/
inductive ProposeErr (ε : Type)
  | fn (e : ε)
  | round (e : RoundErr)
  | ctx
  | noView
  | noBallot
  deriving DecidableEq, Repr

/-- What an accept round commits: the change, or the row found, to back the change function's
error. -/
inductive Goal (ε : Type)
  | change (value : Bytes) (hasValue : Bool)
  | reaccept (err : ε)
  deriving DecidableEq, Repr

/-- The value the accept round carries. -/
def Goal.value {ε : Type} (cur : Row) : Goal ε → Bytes × Bool
  | .change value hasValue => (value, hasValue)
  | .reaccept _ => (cur.value, cur.hasValue)

/-- Whether it is the change, which may expire. -/
def Goal.isChange {ε : Type} : Goal ε → Bool
  | .change _ _ => true
  | .reaccept _ => false

/-- The round a call is in. -/
inductive Round (ε : Type)
  | prepare (l : PrepareLoop)
  | accept (cur : Row) (goal : Goal ε) (l : AcceptLoop)
  deriving DecidableEq, Repr

/-- How far the call of one acceptor is: the request, the view it asked for, the request again. -/
inductive Stage
  | first
  | installing
  | second
  deriving DecidableEq, Repr

/-- Where a call is: before a round, in one, waiting after a conflict, or done. -/
inductive Phase (ε : Type)
  | ready
  | round (v : View) (b : Ballot) (pending : List (NodeID × Stage)) (r : Round ε)
  | waiting
  | done (res : Result) (err : Option (ProposeErr ε))
  deriving DecidableEq, Repr

/-- One call of `Propose`. `env` holds the variables its change function captured, `aerr` the
error of its last re-accept round. -/
structure Call (σ ε : Type) where
  node : NodeID
  reg : Bytes
  fn : ChangeFunc σ ε
  notAfter : ℤ := 0
  env : σ
  last : Ballot := ⊥
  aerr : Option RoundErr := none
  phase : Phase ε := .ready

namespace Call

variable {σ ε : Type}

/-- The request of a round. -/
def req (c : Call σ ε) (b : Ballot) : Round ε → Req
  | .prepare _ => .prepare c.reg b
  | .accept cur goal _ => .accept c.reg b (goal.value cur).1 (goal.value cur).2
      (if goal.isChange then c.notAfter else 0)

/-- The message for an acceptor at a stage of its call. -/
def msg (c : Call σ ε) (v : View) (b : Ballot) (r : Round ε) : Stage → Msg
  | .installing => ⟨v.incarnation, v.epoch, .install v⟩
  | _ => ⟨v.incarnation, v.epoch, c.req b r⟩

/-- Begins a round with every voter of the view. -/
def broadcast (c : Call σ ε) (v : View) (b : Ballot) (r : Round ε) : Call σ ε :=
  { c with phase := .round v b (v.voterIDs.map fun id => (id, .first)) r }

/-- A failed round: a newer view or a conflict is retried, anything else ends the call. -/
def handleRoundError (c : Call σ ε) : RoundErr → Call σ ε
  | .stale _ => { c with phase := .ready }
  | .conflict b => { c with last := max c.last b, phase := .waiting }
  | e => { c with phase := .done {} (some (.round e)) }

/-- After the prepare round: run the change function, and start the accept round it asks for. -/
def prepared (c : Call σ ε) (v : View) (b : Ballot) : Except RoundErr Row → Call σ ε
  | .error e => c.handleRoundError e
  | .ok cur =>
    match c.fn c.env cur b with
    | (env, .error err) =>
      if cur.accepted.isZero ∧ !cur.hasValue then
        { c with env := env, phase := .done {} (some (.fn err)) }
      else { c with env := env }.broadcast v b (.accept cur (.reaccept err) {})
    | (env, .ok (value, hasValue)) =>
      { c with env := env }.broadcast v b (.accept cur (.change value hasValue) {})

/-- After the accept round. The error of the change function stands once the row it saw is accepted
again. -/
def accepted (c : Call σ ε) (b : Ballot) (cur : Row) : Goal ε → Except RoundErr Unit → Call σ ε
  | .change value hasValue, .ok () => { c with phase := .done ⟨b, value, hasValue⟩ none }
  | .change value hasValue, .error (.unknown n q) =>
    { c with phase := .done ⟨b, value, hasValue⟩ (some (.round (.unknown n q))) }
  | .change _ _, .error e => c.handleRoundError e
  | .reaccept err, .ok () =>
    { c with
      aerr := none
      phase := .done ⟨cur.accepted, cur.value, cur.hasValue⟩ (some (.fn err)) }
  | .reaccept err, .error (.unknown n q) =>
    { c with
      aerr := some (.unknown n q)
      phase := .done ⟨cur.accepted, cur.value, cur.hasValue⟩ (some (.fn err)) }
  | .reaccept _, .error e => { c with aerr := some e }.handleRoundError e

/-- A reply of the round the call is in. -/
def reply (c : Call σ ε) (v : View) (b : Ballot) (pending : List (NodeID × Stage))
    (r : Option Answer) : Round ε → Call σ ε
  | .prepare l =>
    match l.reply v r with
    | .next l => { c with phase := .round v b pending (.prepare l) }
    | .ret o => c.prepared v b o
  | .accept cur goal l =>
    match l.reply v r with
    | .next l => { c with phase := .round v b pending (.accept cur goal l) }
    | .ret o => c.accepted b cur goal o

/-- Whether the acceptor asks for the view. -/
def needView (ans : Answer) : Bool :=
  match ans.reply with
  | .err .needView _ _ => true
  | _ => false

/-- Take one voter's answer. An acceptor that needs the view is sent it once, then asked again. -/
def hear (c : Call σ ε) (v : View) (b : Ballot) (pending : List (NodeID × Stage)) (r : Round ε)
    (w : NodeID) (st : Stage) (ans : Answer) : Call σ ε :=
  let rest := pending.erase (w, st)
  match st, needView ans with
  | .first, true => { c with phase := .round v b ((w, .installing) :: rest) r }
  | .installing, _ => { c with phase := .round v b ((w, .second) :: rest) r }
  | _, _ => c.reply v b rest (some ans) r

/-- Every voter has been heard. -/
def close (c : Call σ ε) (v : View) (b : Ballot) : Round ε → Call σ ε
  | .prepare l => c.prepared v b l.close
  | .accept cur goal l => c.accepted b cur goal (l.close v)

end Call

end Dstore

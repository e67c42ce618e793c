import Dstore.System
import Dstore.Lib.Codec

/-!
# Typed operations over the registers

References and the view are written through `Propose`. An operation's change function decodes the
current row, checks its precondition and encodes the new value, noting in captured variables what
the operation will answer from. Where the accept round ends unknown the operation settles the
register and answers from what it finds. The encoding of values is a parameter.
-/

namespace Dstore

/-- The name of the view register. -/
def regView : Bytes := [118, 105, 101, 119]

/-- The register of a reference. -/
def refReg (name : Bytes) : Bytes := [114, 101, 102, 47] ++ name

/-- How a voter is written. -/
def voterForm : Form Voter :=
  (Form.nat.pair Form.nat).retract (fun v => (v.id, v.since)) (fun p => ⟨p.1, p.2⟩) fun _ => rfl

/-- How the state of a voter change is written. -/
def syncForm : Form VoterSync :=
  Form.nat.retract (fun p => if p = .pending then 1 else 0)
    (fun n => if n = 1 then .pending else .done) fun p => by cases p <;> rfl

/-- An encoding of views, in place of the CBOR of the source. -/
def viewCodec : Codec View :=
  let ids := Form.nat.list
  Form.codec ((Form.byteList.pair (Form.nat.pair (Form.nat.pair (Form.nat.pair
      (voterForm.list.pair (syncForm.pair (Form.byteList.pair (Form.nat.option.pair
        (Form.bool.pair (ids.pair (ids.pair ids))))))))))).retract
    (fun v => (v.clusterID, v.incarnation, v.epoch, v.version, v.voters, v.voterSync,
      v.voterSyncCursor, v.voterSyncTarget, v.voterSyncAdd, v.nodes, v.deferredVoters,
      v.removeVoters))
    (fun ⟨c, i, e, k, vs, s, cur, t, a, ns, d, r⟩ => ⟨c, i, e, k, vs, s, cur, t, a, ns, d, r⟩)
    fun _ => rfl)

/-- The value of a reference register; `version` is the ballot the writing CAS committed at. -/
structure RefValue where
  record : Bytes := []
  deletedAt : ℤ := 0
  version : Bytes := []
  deriving DecidableEq, Repr

/-- An encoding of reference values, in place of the CBOR of the source. -/
def refCodec : Codec RefValue :=
  Form.codec ((Form.byteList.pair (Form.int.pair Form.byteList)).retract
    (fun r => (r.record, r.deletedAt, r.version)) (fun p => ⟨p.1, p.2.1, p.2.2⟩) fun _ => rfl)

/-- A deleted reference keeps a value without a record. -/
def RefValue.isTombstone (r : RefValue) : Bool := r.record.length = 0

/-- What a failed precondition reports of the current value. -/
structure CASMismatch where
  current : Option RefValue := none
  version : Bytes := []
  hasCurrent : Bool := false
  deriving DecidableEq, Repr

/-- The errors of the change functions. -/
inductive CatalogErr
  | decode
  | noView
  | viewExists
  | alreadyDone
  | casMismatch (m : CASMismatch)
  | change (text : String)
  deriving DecidableEq, Repr

/-- The variables the change functions capture: the version a reference was committed at, and the
view a view change computed. -/
structure Vars where
  version : Bytes := []
  out : Option View := none
  deriving DecidableEq, Repr

/-- What a `Propose` returned. -/
abbrev Outcome := Result × Option (ProposeErr CatalogErr)

/-- Re-accept what the prepare phase found; `Settle` proposes it. -/
def identity {σ ε : Type} : ChangeFunc σ ε := fun env cur _ => (env, .ok (cur.value, cur.hasValue))

/-- Write the first value of a register. -/
def createIfAbsent {σ ε : Type} (err : ε) (value : Bytes) : ChangeFunc σ ε := fun env cur _ =>
  (env, if cur.hasValue then .error err else .ok (value, true))

/-- A reference CAS precondition. `none` for an expectation means the name must not exist. -/
structure Cond where
  expectedVersion : Option Bytes := none
  versioned : Bool := false
  expectedOld : Option Bytes := none
  keyed : Bool := false
  force : Bool := false
  deriving DecidableEq, Repr

namespace Cond

/-- The report of a failed precondition; nothing where the name does not exist. -/
def mismatch (cur : RefValue) (present : Bool) : CASMismatch :=
  if present then { current := some cur, version := cur.version, hasCurrent := true } else {}

/-- Compares an expectation with what is there. -/
def expect (expected : Option Bytes) (cur : RefValue) (present : Bool) (actual : Bytes) :
    Option CASMismatch :=
  match expected with
  | none => if present then some (mismatch cur present) else none
  | some e => if !present ∨ e ≠ actual then some (mismatch cur present) else none

/-- The precondition, by the version or by the key of the record; without either there is none. -/
def check (cond : Cond) (cur : RefValue) (present : Bool) (curKey : Bytes) : Option CASMismatch :=
  if cond.force then none
  else if cond.versioned then expect cond.expectedVersion cur present cur.version
  else if cond.keyed then expect cond.expectedOld cur present curKey
  else none

end Cond

section references

variable (refs : Codec RefValue)

/-- The reference a row holds, and whether it is there. A tombstone is not. -/
def currentRef (cur : Row) : Except CatalogErr (RefValue × Bool) :=
  if cur.hasValue then
    match refs.dec cur.value with
    | none => .error .decode
    | some rv => .ok (rv, !rv.isTombstone)
  else .ok ({}, false)

/-- The change function of `RefPut`. Finding its own record in the way it takes for a retry. -/
def refPutFn (record : Bytes) (cond : Cond) (keyOf : Bytes → Bytes) :
    ChangeFunc Vars CatalogErr := fun env cur b =>
  match currentRef refs cur with
  | .error e => (env, .error e)
  | .ok (rv, present) =>
    match cond.check rv present (if present then keyOf rv.record else []) with
    | some m =>
      if present ∧ rv.record = record then
        ({ env with version := rv.version }, .error .alreadyDone)
      else (env, .error (.casMismatch m))
    | none =>
      ({ env with version := b.bytes },
        .ok (refs.enc { record := record, version := b.bytes }, true))

/-- How `RefPut` may fail: as its `Propose` did, or with the write lost. -/
inductive RefPutErr
  | propose (e : ProposeErr CatalogErr)
  | lost (e : ProposeErr CatalogErr)
  deriving DecidableEq, Repr

/-- What `RefPut` answers, from the outcome of its `Propose`, the version its change function
left, and the outcome of `Settle` where it settles. -/
def refPut (record version : Bytes) (out settle : Outcome) : Except RefPutErr Bytes :=
  match out.2 with
  | none => .ok version
  | some (.fn .alreadyDone) => .ok version
  | some (.round (.unknown n k)) =>
    match settle.2 with
    | some _ => .error (.propose (.round (.unknown n k)))
    | none =>
      match if settle.1.hasValue then refs.dec settle.1.value else none with
      | some rv =>
        if rv.record = record then .ok rv.version else .error (.lost (.round (.unknown n k)))
      | none => .error (.lost (.round (.unknown n k)))
  | some e => .error (.propose e)

/-- The change function of `RefDelete`; `now` is the clock when the attempt at a ballot runs it. -/
def refDeleteFn (cond : Cond) (keyOf : Bytes → Bytes) (now : Ballot → ℤ) :
    ChangeFunc Vars CatalogErr := fun env cur b =>
  match currentRef refs cur with
  | .error e => (env, .error e)
  | .ok (rv, present) =>
    if !present ∧ (cond.force ∨ cond.versioned ∧ cond.expectedVersion.isSome ∨
        cond.keyed ∧ cond.expectedOld.isSome) then (env, .error .alreadyDone)
    else
      match cond.check rv present (if present then keyOf rv.record else []) with
      | some m => (env, .error (.casMismatch m))
      | none =>
        if !present then (env, .error .alreadyDone)
        else (env, .ok (refs.enc { deletedAt := now b, version := b.bytes }, true))

/-- What `RefDelete` answers: the ballot of the tombstone, zero where there was nothing to
delete. -/
def refDelete (out settle : Outcome) : Except (ProposeErr CatalogErr) Ballot :=
  match out.2 with
  | none => .ok out.1.ballot
  | some (.fn .alreadyDone) => .ok ⊥
  | some (.round (.unknown n k)) =>
    match settle.2, if settle.1.hasValue then refs.dec settle.1.value else none with
    | none, some rv =>
      if rv.isTombstone then .ok settle.1.ballot else .error (.round (.unknown n k))
    | _, _ => .error (.round (.unknown n k))
  | some e => .error e

end references

section typed

variable {V σ ε : Type} (codec : Codec V)

/-- The change function of a register with values in `V`: a row without a value is taken for
`absent`, and `note` is what the captured variables keep of the value it computed, or of the one it
found where `change` refused it. -/
def casFn (decode : ε) (absent : Except ε V) (note : V → σ → σ) (change : V → Except ε V) :
    ChangeFunc σ ε := fun env cur _ =>
  let found := if cur.hasValue then
      match codec.dec cur.value with
      | none => .error decode
      | some v => .ok v
    else absent
  match found with
  | .error e => (env, .error e)
  | .ok v =>
    match change v with
    | .error e => (note v env, .error e)
    | .ok u => (note u env, .ok (codec.enc u, true))

end typed

/-- A changed view with its version raised, and its epoch where the change asks for it. -/
def nextView (v nv : View) (bump : Bool) : View :=
  { nv with
    version := v.version + 1
    epoch := if bump then v.epoch + 1 else nv.epoch }

section view

variable (views : Codec View)

/-- The change function of `CASView`; the captured `out` is the view it computed, or the one it
found where the change refused it. -/
def casViewFn (change : View → Except CatalogErr (View × Bool)) : ChangeFunc Vars CatalogErr :=
  casFn views .decode (.error .noView) (fun v env => { env with out := some v }) fun v =>
    (change v).map fun r => nextView v r.1 r.2

/-- The change function that writes the first view. -/
def initViewFn (v : View) : ChangeFunc Vars CatalogErr := createIfAbsent .viewExists (views.enc v)

/-- How `CASView` may fail: as its `Propose` did, on a view that does not decode, or with the CAS
lost. -/
inductive CASViewErr
  | propose (e : ProposeErr CatalogErr)
  | decode
  | lost (e : ProposeErr CatalogErr)
  deriving DecidableEq, Repr

/-- What `CASView` answers, from the outcome of its `Propose`, the view its change function left,
and the outcome of `Settle` where it settles: the view and no error, or the error. -/
def casView (out : Option View) (res settle : Outcome) : Option View × Option CASViewErr :=
  match res.2 with
  | none =>
    match views.dec res.1.value with
    | none => (none, some .decode)
    | some v => (some v, none)
  | some (.round (.unknown n k)) =>
    match settle.2 with
    | some _ => (out, some (.propose (.round (.unknown n k))))
    | none =>
      match if settle.1.hasValue then views.dec settle.1.value else none with
      | some v =>
        if some v.version = out.map View.version then (some v, none)
        else (some v, some (.lost (.round (.unknown n k))))
      | none => (out, some (.propose (.round (.unknown n k))))
  | some e => (out, some (.propose e))

end view

end Dstore

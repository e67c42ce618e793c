import Dstore.Catalog
import Dstore.Cluster
import Dstore.GcRegister

/-!
# The view and gc registers on the catalog

`CASView` and `CASGC` hand `Propose` one change function each: it decodes the row it is given, runs
the caller's change and encodes what that made. `CASView` refuses a register without a view, which
`InitView` writes first; `CASGC` takes one without a value for the zero state.
-/

namespace Dstore

namespace Cluster

/-- A placement node as it stands in an encoded view. -/
def nodeForm : Form Node :=
  (Form.nat.pair (Form.nat.pair (Form.string.list.pair (Form.byteList.pair (Form.string.pair
    (Form.nat.pair Form.bool)))))).retract
    (fun n => (n.id, n.weight, n.addrs, n.token, n.zone, n.incarnation, n.writable))
    (fun p => ⟨p.1, p.2.1, p.2.2.1, p.2.2.2.1, p.2.2.2.2.1, p.2.2.2.2.2.1, p.2.2.2.2.2.2⟩)
    fun _ => rfl

/-- The transition in progress as it stands in an encoded view. -/
def pendingForm : Form Pending :=
  let ids := Form.nat.list
  ((nodeForm.list.pair (Form.nat.pair Form.nat)).pair ((ids.pair ids).pair ((Form.bool.pair
    Form.nat).pair ((ids.pair ids).pair (Form.int.pair Form.int))))).retract
    (fun p => ((p.nodes, p.replicas, p.id), (p.participantsAck, p.participants),
      (p.frozen, p.round), (p.primaryDone, p.done), p.frozenAt, p.since))
    (fun p => {
      nodes := p.1.1, replicas := p.1.2.1, id := p.1.2.2
      participantsAck := p.2.1.1, participants := p.2.1.2
      frozen := p.2.2.1.1, round := p.2.2.1.2
      primaryDone := p.2.2.2.1.1, done := p.2.2.2.1.2
      frozenAt := p.2.2.2.2.1, since := p.2.2.2.2.2 })
    fun _ => rfl

/-- An encoding of views to run the register with; what is proved of it is so of every codec. -/
def viewCodec : Codec View :=
  let ids := Form.nat.list
  let formers := ((Form.nat.pair Form.int).retract (fun f : Former => (f.id, f.expiry))
    (fun p => ⟨p.1, p.2⟩) fun _ => rfl).list
  let ramps := ((Form.nat.pair (Form.nat.pair Form.nat)).retract
    (fun r : Ramp => (r.node, r.target, r.step)) (fun p => ⟨p.1, p.2.1, p.2.2⟩) fun _ => rfl).list
  let coordinates := Form.nat.pair (Form.nat.pair (Form.nat.pair Form.nat))
  let sync := syncForm.pair (Form.byteList.pair (Form.nat.option.pair Form.bool))
  Form.codec ((coordinates.pair ((Form.nat.pair (Form.nat.pair voterForm.list)).pair (sync.pair
      ((nodeForm.list.pair (pendingForm.option.pair formers)).pair ((Form.bool.pair Form.nat).pair
        (ids.pair (ramps.pair ids))))))).retract
    (fun v => ((v.incarnation, v.epoch, v.version, v.placementEpoch),
      (v.replicas, v.minReplicas, v.voters),
      (v.voterSync, v.voterSyncCursor, v.voterSyncTarget, v.voterSyncAdd),
      (v.nodes, v.pending, v.former), (v.rebalancePause, v.rateCap),
      v.deferredVoters, v.ramps, v.removeVoters))
    (fun p => {
      incarnation := p.1.1, epoch := p.1.2.1, version := p.1.2.2.1, placementEpoch := p.1.2.2.2
      replicas := p.2.1.1, minReplicas := p.2.1.2.1, voters := p.2.1.2.2
      voterSync := p.2.2.1.1, voterSyncCursor := p.2.2.1.2.1
      voterSyncTarget := p.2.2.1.2.2.1, voterSyncAdd := p.2.2.1.2.2.2
      nodes := p.2.2.2.1.1, pending := p.2.2.2.1.2.1, former := p.2.2.2.1.2.2
      rebalancePause := p.2.2.2.2.1.1, rateCap := p.2.2.2.2.1.2
      deferredVoters := p.2.2.2.2.2.1, ramps := p.2.2.2.2.2.2.1
      removeVoters := p.2.2.2.2.2.2.2 })
    fun _ => rfl)

/-- What `CASView` may fail with: an error of the catalog, or the change's own. -/
abbrev CASErr := CatalogErr ⊕ Err

/-- The change function that `CASView` makes of one of the program's changes. -/
def casViewFn (views : Codec View) (c : Change) : ChangeFunc (Option View) CASErr :=
  casFn views (.inl .decode) (.error (.inl .noView)) (fun v _ => some v) fun v =>
    (casView c v).mapError .inr

/-- The change function of `InitView`, which writes the first view and never replaces one. -/
def initViewFn (views : Codec View) (v : View) : ChangeFunc (Option View) CASErr :=
  createIfAbsent (.inl .viewExists) (views.enc v)

end Cluster

namespace Gc

/-- The name of the gc register. -/
def regGC : Bytes := [103, 99]

/-- The change function that `CASGC` makes of one of the writes. -/
def casGCFn (states : Codec GCState) (w : Write) :
    ChangeFunc (Option GCState) (CatalogErr ⊕ Err) :=
  casFn states (.inl .decode) (.ok {}) (fun st _ => some st) fun st => (w.apply st).mapError .inr

end Gc

end Dstore

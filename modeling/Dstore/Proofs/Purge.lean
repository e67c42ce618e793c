import Dstore.Proofs.Agreement
import Dstore.Proofs.Merge
import Dstore.Catalog

/-!
# Purging never resurrects

Once a ballot is chosen, what voters answer from then on reports it or a later one, or nothing
where a purge erased it; so does every prepare round above it. An older ballot that still completes
its majority is one the chosen value was computed on.
-/

namespace Dstore

open Machine

variable {σ ε : Type} {s s₀ s' : State σ ε} {as bs : List (Action σ ε)} {act : Action σ ε}
  {vs : List Voter} {v : View} {w : NodeID} {reg : Bytes} {b b' : Ballot} {x : Bytes × Bool}
  {row cur : Row} {e : Event} {log new : List Event}

theorem Row.eq_empty (hz : row.accepted = ⊥) (h : row.value = [] ∧ row.hasValue = false) :
    row = {} := by
  rcases row with ⟨acc, val, has⟩
  simp_all

theorem RowOk.eq_empty (h : RowOk log w reg row) (hz : row.accepted = ⊥) : row = {} :=
  Row.eq_empty hz (h.absent hz)

/-- What was answered between two states. -/
def since (s s' : State σ ε) : List Event := s'.log.take (s'.log.length - s.log.length)

theorem log_run (hr : run step s bs = some s') : s'.log = since s s' ++ s.log := by
  obtain ⟨new, hnew⟩ : ∃ new, s'.log = new ++ s.log := by
    refine invariant (P := fun t : State σ ε => ∃ new, t.log = new ++ s.log)
      (fun t a t' h ht => ?_) bs ⟨[], rfl⟩ hr
    obtain ⟨new, hnew⟩ := h
    cases step_stepped ht with
    | deliver hm => exact ⟨_ :: new, by simp only [State.deliver, hnew]; rfl⟩
    | _ => exact ⟨new, hnew⟩
  simp [since, hnew]

section after

variable {ids : List NodeID} (hl : Lawful ids (new ++ log)) (he : e ∈ new) (hn : e.node = w)
  (hw : w ∈ ids)
include hl he hn hw

theorem Lawful.after : ∃ mid, mid ⊆ new ∧ EventOk (mid ++ log) e := by
  induction new with
  | nil => simp at he
  | cons e' new ih =>
    rcases List.mem_cons.1 he with rfl | he
    · exact ⟨new, List.subset_cons_self _ _, hl.1 (hn ▸ hw)⟩
    · obtain ⟨mid, hsub, hok⟩ := ih hl.2 he
      exact ⟨mid, List.subset_cons_of_subset _ hsub, hok⟩

theorem Lawful.report_after (hv : Voted log w reg b x) (hr : e.Reports reg row) :
    b ≤ row.accepted ∨ row = {} := by
  obtain ⟨mid, -, hok⟩ := hl.after he hn hw
  have hrow := hok.report reg row hr
  rw [hn] at hrow
  exact (hrow.high b x (hv.mono fun _ h => List.mem_append_right _ h)).imp id
    fun h => hrow.eq_empty h.1

theorem Lawful.promise_after (hv : Voted log w reg b x) (hp : e.IsPromise w reg b' row) :
    b < b' := by
  obtain ⟨mid, -, hok⟩ := hl.after he hn hw
  exact (hok.promise w reg b' row hp).2 b x (hv.mono fun _ h => List.mem_append_right _ h)

end after

/-- These voters were asked `req`, and answered so after `s`; `none` is a call that failed. -/
structure Asked (s s' : State σ ε) (v : View) (req : Req) (rs : List (NodeID × Option Answer)) :
    Prop where
  nodup : (rs.map Prod.fst).Nodup
  voter : ∀ p ∈ rs, p.1 ∈ v.voterIDs
  answer : ∀ w ans, (w, some ans) ∈ rs → ⟨w, ⟨v.incarnation, v.epoch, req⟩, ans⟩ ∈ since s s'

instance {req : Req} {rs : List (NodeID × Option Answer)} : Decidable (Asked s s' v req rs) :=
  decidable_of_iff ((rs.map Prod.fst).Nodup ∧ (∀ p ∈ rs, p.1 ∈ v.voterIDs) ∧ ∀ p ∈ rs,
      ∀ ans ∈ p.2, ⟨p.1, ⟨v.incarnation, v.epoch, req⟩, ans⟩ ∈ since s s')
    ⟨fun h => ⟨h.1, h.2.1, fun _ ans hm => h.2.2 _ hm ans rfl⟩,
      fun h => ⟨h.nodup, h.voter, fun p hp ans hans => h.answer p.1 ans (hans ▸ hp)⟩⟩

theorem Asked.read_row {rs : List (NodeID × Option Answer)} (ha : Asked s s' v (.read reg) rs)
    (hr : Dstore.read v (rs.map Prod.snd) [] = .row row) :
    ∃ got : List (NodeID × Row), (got.map Prod.fst).Nodup ∧ v.quorum ≤ got.length ∧
      (∃ p ∈ got, p.2 = row) ∧ ∀ p ∈ got, p.1 ∈ v.voterIDs ∧ p.2.accepted = row.accepted ∧
        ∃ e ∈ since s s', e.node = p.1 ∧ e.Reports reg p.2 := by
  have hr' : Dstore.read v (rs.map Prod.snd) (([] : List (NodeID × Row)).map Prod.snd) =
      .row row := hr
  obtain ⟨got, hsub, hlen, hmem, hgot⟩ := read_eq_row hr'
  refine ⟨got, ha.nodup.sublist (by simpa using hsub), hlen, hmem, fun p hp => ?_⟩
  obtain ⟨ans, hans, hrow⟩ := (hgot p hp).2.resolve_left (by simp)
  obtain ⟨prom, rfl⟩ := readRow_eq_some hrow
  exact ⟨ha.voter _ hans, (hgot p hp).1, _, ha.answer _ _ hans, rfl, .read rfl rfl⟩

/-- What the ballot `b`, chosen in `s`, means for the answers, rows and ballots of a later `s'`. -/
structure Buried (vs : List Voter) (reg : Bytes) (b : Ballot) (s s' : State σ ε) : Prop where
  /-- A prepare round above `b`, and one that got no promise before, is above `b` and returns `b`,
  a later row, or none. -/
  prepare : ∀ v ∈ s'.views, ∀ b' cur, PromiseQuorum s'.log v reg b' cur →
    (b < b' ∨ ∀ w row, ¬ Promised s.log w reg b' row) → b < b' ∧ (b ≤ cur.accepted ∨ cur = {})
  /-- So does a fast read. -/
  read : ∀ v ∈ s'.views, ∀ rs row, Asked s s' v (.read reg) rs →
    Dstore.read v (rs.map Prod.snd) [] = .row row → b ≤ row.accepted ∨ row = {}
  /-- A settled row of a scan is `b` or later. -/
  scan : ∀ v ∈ s'.views, ∀ rs pre after limit rows next, Asked s s' v (.scan pre after limit) rs →
    Dstore.scan v (rs.map Prod.snd) = .page rows next →
    ∀ r ∈ rows, r.reg = reg → r.undecided = false → b ≤ r.row.accepted
  /-- No majority holds older rows. -/
  held : ∀ Q, Majority.IsQuorum (ids vs) Q → ∃ w ∈ Q,
    b ≤ ((s'.acc w).row reg).accepted ∨ ((s'.acc w).row reg).toRow = {}
  /-- What is prepared afterwards and chosen is above `b`. -/
  chosen : ∀ a x, Chosen vs s' reg a x → (∀ w row, ¬ Promised s.log w reg a row) → b < a
  /-- An older ballot that is chosen, then or later, is one that `b` was computed above, unless a
  purge between the two had erased it. -/
  older : ∀ a x, Chosen vs s' reg a x → a < b → ∀ q ∈ s'.proposals, q.reg = reg → q.ballot = b →
    a ≤ q.cur.accepted ∨ q.cur = {} ∧
      ∃ w m d, (w, m) ∈ s'.sent ∧ m.req = .purge reg d ∧ a ≤ d ∧ d < b

/-- No page has a register twice. -/
def PagesOk (s : State σ ε) : Prop :=
  ∀ e ∈ s.log, ∀ rows more next, e.ans.reply = .scanReply rows more next →
    (rows.map ScanRow.reg).Nodup

/-- Every page has each register once. -/
theorem PagesOk.next (h : PagesOk s) (hs : Stepped s act s') : PagesOk s' := by
  cases hs with
  | @deliver w m now hm =>
    intro e he rows more next hr
    rcases List.mem_cons.1 he with rfl | he
    · have hserved := Acceptor.dispatch_served (s.acc w) now m
      change ((s.acc w).dispatch now m).2 = _ at hr
      generalize ((s.acc w).dispatch now m).1 = a', ((s.acc w).dispatch now m).2 = r at hserved hr
      cases hserved with
      | scanned => exact Acceptor.scan_nodup hr
      | @purged reg b =>
        rcases (s.acc w).purge_reply reg b with hk | ⟨code, text, v, hk⟩ <;>
          exact absurd (hk.symm.trans hr) (by simp)
      | _ => cases hr
    · exact h e he rows more next hr
  | _ => exact h

theorem pagesOk_run (h₀ : Initial s₀) (hr : run step s₀ as = some s) : PagesOk s :=
  invariant (fun _ _ _ h hs => h.next (step_stepped hs)) as (by simp [PagesOk, h₀.log]) hr

namespace Inv

variable (h : Inv vs s') (hc : Chosen vs s reg b x)
include h hc

theorem asked_voter {got : List NodeID} (hv : v ∈ s'.views) (hnd : got.Nodup)
    (hmem : ∀ w ∈ got, w ∈ v.voterIDs) (hlen : v.quorum ≤ got.length) :
    ∃ w ∈ got, w ∈ ids vs ∧ Voted s.log w reg b x := by
  obtain ⟨Q, hQ, hvotes⟩ := hc
  have hgot : Majority.IsQuorum (ids vs) got.toFinset := by
    refine ⟨fun w hw => h.voterIDs hv ▸ hmem w (List.mem_toFinset.1 hw), ?_⟩
    rw [List.toFinset_card_of_nodup hnd, ← h.voterIDs hv, ← View.quorum_eq]
    exact hlen
  obtain ⟨w, hw, hwQ⟩ := hgot.exists_mem hQ
  exact ⟨w, List.mem_toFinset.1 hw, hQ.subset w hwQ, hvotes w hwQ⟩

variable (hlog : s'.log = since s s' ++ s.log)
include hlog

/-- A later prepare finds the buried ballot, a newer one or an empty register. -/
theorem buried_prepare (hv : v ∈ s'.views) (hq : PromiseQuorum s'.log v reg b' cur)
    (hb : b < b' ∨ ∀ w row, ¬ Promised s.log w reg b' row) :
    b < b' ∧ (b ≤ cur.accepted ∨ cur = {}) := by
  have hlt : b < b' := by
    rcases hb with hb | hfresh
    · exact hb
    obtain ⟨Q, hQ, hvotes⟩ := hc
    obtain ⟨P, hP, hall, -⟩ := hq
    rw [h.voterIDs hv] at hP
    obtain ⟨w, hwP, hwQ⟩ := hP.exists_mem hQ
    obtain ⟨row, hrow, -⟩ := hall w hwP
    rw [PromisedTo, hlog] at hrow
    rcases List.mem_append.1 hrow with hrow | hrow
    · exact (hlog ▸ h.lawful).promise_after hrow rfl (hQ.subset w hwQ) (hvotes w hwQ)
        ⟨rfl, rfl, rfl⟩
    · exact absurd ⟨_, hrow, rfl, rfl, rfl⟩ (hfresh w row)
  have hc' : Chosen vs s' reg b x := by
    obtain ⟨Q, hQ, hvotes⟩ := hc
    exact ⟨Q, hQ, fun w hw => (hvotes w hw).mono fun _ he => hlog ▸ List.mem_append_right _ he⟩
  exact ⟨hlt, (h.law hc' hv hq hlt).imp id fun hz =>
    Row.eq_empty hz.1 ((h.cur_row hv hq).2.2 hz.1)⟩

theorem buried_read {rs : List (NodeID × Option Answer)} (hv : v ∈ s'.views)
    (ha : Asked s s' v (.read reg) rs) (hr : Dstore.read v (rs.map Prod.snd) [] = .row row) :
    b ≤ row.accepted ∨ row = {} := by
  obtain ⟨got, hnd, hlen, ⟨p₀, hp₀, rfl⟩, hgot⟩ := ha.read_row hr
  obtain ⟨w, hw, hids, hvote⟩ := h.asked_voter hc hv hnd (fun w hw => by
    obtain ⟨p, hp, rfl⟩ := List.mem_map.1 hw
    exact (hgot p hp).1) (by simpa using hlen)
  obtain ⟨p, hp, rfl⟩ := List.mem_map.1 hw
  obtain ⟨-, hacc, e, he, hn, hrep⟩ := hgot p hp
  rcases (hlog ▸ h.lawful).report_after he hn hids hvote hrep with hle | hz
  · exact .inl (hle.trans hacc.le)
  · have hbot : p₀.2.accepted = ⊥ := by rw [← hacc, hz]
    obtain ⟨hid, -, e₀, he₀, hn₀, hrep₀⟩ := hgot p₀ hp₀
    obtain ⟨mid, -, hok⟩ := (hlog ▸ h.lawful).after he₀ hn₀ (h.voterIDs hv ▸ hid)
    exact .inr ((hok.report reg _ hrep₀).eq_empty hbot)

/-- A scan that calls the register decided shows nothing below a buried ballot. -/
theorem buried_scan {rs : List (NodeID × Option Answer)} {pre after : Bytes} {limit : ℤ}
    {rows : List MergedRow} {next : Option Bytes} {r : MergedRow} (hpages : PagesOk s')
    (hv : v ∈ s'.views) (ha : Asked s s' v (.scan pre after limit) rs)
    (hscan : Dstore.scan v (rs.map Prod.snd) = .page rows next) (hr : r ∈ rows) (hreg : r.reg = reg)
    (hset : r.undecided = false) : b ≤ r.row.accepted := by
  unfold Dstore.scan at hscan
  split at hscan
  · cases hscan
  rename_i ps hps
  split_ifs at hscan with hlen
  cases hscan
  obtain ⟨got, rfl, hsub, hgot⟩ := pages_eq_ok hps
  have hans := fun p hp => ha.answer _ _ (hgot p hp)
  have hnd : ∀ p ∈ got.map Prod.snd, (p.rows.map ScanRow.reg).Nodup := by
    intro p hp
    obtain ⟨p', hp', rfl⟩ := List.mem_map.1 hp
    exact hpages _ (hlog ▸ List.mem_append_left _ (hans p' hp')) _ _ _ rfl
  obtain ⟨w, hw, hids, hvote⟩ := h.asked_voter hc hv (ha.nodup.sublist hsub) (by
    intro w hw
    obtain ⟨p, hp, rfl⟩ := List.mem_map.1 hw
    exact ha.voter _ (hgot p hp)) (by simpa using hlen)
  obtain ⟨p, hp, rfl⟩ := List.mem_map.1 hw
  obtain ⟨sr, hsr, hsreg, hacc, hne, -⟩ :=
    mergedRows_settled hnd hr hset p.2 (List.mem_map_of_mem hp)
  obtain ⟨sreg, sprom, sacc, sval, shas⟩ := sr
  obtain rfl : sreg = reg := hsreg.trans hreg
  have hrep : Event.Reports ⟨p.1, ⟨v.incarnation, v.epoch, .scan pre after limit⟩,
      ⟨v.incarnation, v.epoch, .scanReply p.2.rows p.2.more p.2.next⟩⟩ sreg ⟨sacc, sval, shas⟩ :=
    .scan rfl hsr
  rcases (hlog ▸ h.lawful).report_after (hans p hp) rfl hids hvote hrep with hle | hz
  · exact hle.trans hacc.le
  · exact absurd (congrArg Row.accepted hz) hne

end Inv

/-- Over every run of a fixed voter set without a lost database, with purges at any moment: once a
ballot is chosen, nothing older is reported by a round, a read or a scan that comes after, and
what is prepared after is above it. -/
theorem buried_of_chosen (h₀ : Initial s₀) (hf : Fixed vs s₀) (hk : ∀ a ∈ as ++ bs, Kept a)
    (hr : run step s₀ as = some s) (hc : Chosen vs s reg b x) (hr' : run step s bs = some s') :
    Buried vs reg b s s' := by
  have hrun := run_append.2 ⟨s, hr, hr'⟩
  obtain ⟨h, hlost⟩ := inv_run_kept h₀ hf hk hrun
  have hlog := log_run hr'
  refine ⟨fun v hv b' cur hq hb => h.buried_prepare hc hlog hv hq hb,
    fun v hv rs row ha hrow => h.buried_read hc hlog hv ha hrow,
    fun v hv rs pre after limit rows next ha hscan r hmem hreg hset =>
      h.buried_scan hc hlog (pagesOk_run h₀ hrun) hv ha hscan hmem hreg hset,
    fun Q hQ => ?_, fun a y hch hfresh => ?_, ?_⟩
  · obtain ⟨P, hP, hvotes⟩ := hc
    obtain ⟨w, hw, hwP⟩ := hQ.exists_mem hP
    have hi := (h.acceptor w (hQ.subset w hw)).resolve_right (by simp [hlost])
    have hrow := hi.row reg
    have hvote : Voted s'.log w reg b x :=
      (hvotes w hwP).mono fun _ he => hlog ▸ List.mem_append_right _ he
    exact ⟨w, hw, (hrow.high b x hvote).imp id fun hz => hrow.eq_empty hz.1⟩
  · obtain ⟨q, hq, rfl, rfl, -⟩ := h.voted_proposal hch.voted.choose_spec.2
    have hok := h.proposal q hq
    exact (h.buried_prepare hc hlog hok.view hok.quorum (.inr hfresh)).1
  · rintro a y hch hlt q hq rfl rfl
    have hok := h.proposal q hq
    refine (h.law hch hok.view hok.quorum hlt).imp id fun hz => ⟨?_, hz.2⟩
    exact Row.eq_empty hz.1 ((h.cur_row hok.view hok.quorum).2.2 hz.1)

namespace Trio

/-- The value of a put. -/
def written (k : Fin 256) (b : Ballot) : Bytes :=
  refCodec.enc { record := [k], version := b.bytes }

/-- The value of a deletion. -/
def tombstone (b : Ballot) : Bytes := refCodec.enc { deletedAt := 5, version := b.bytes }

/-- A put, a deletion and another put are called. -/
def putDelete : List (Action Vars CatalogErr) :=
  [.propose 1 1 (refReg [1]) (refPutFn refCodec [9] { versioned := true } id) 0 {},
    .propose 2 2 (refReg [1]) (refDeleteFn refCodec { force := true } id fun _ => 5) 0 {},
    .propose 3 3 (refReg [1]) (refPutFn refCodec [8] { force := true } id) 0 {}]

/-- The put and the deletion reach all three voters. -/
def deleted : List (Action Vars CatalogErr) :=
  let x := written 9 ⟨1, 1⟩
  let y := tombstone ⟨2, 2⟩
  putDelete ++ prepare 1 (refReg [1]) ⟨1, 1⟩ [(1, {}), (2, {})] ++
  accept 1 (refReg [1]) ⟨1, 1⟩ x [1, 2] ++
  [.deliver 3 ⟨1, 1, .accept (refReg [1]) ⟨1, 1⟩ x true 0⟩ 0] ++
  prepare 2 (refReg [1]) ⟨2, 2⟩ [(1, ⟨⟨1, 1⟩, x, true⟩), (2, ⟨⟨1, 1⟩, x, true⟩)] ++
  accept 2 (refReg [1]) ⟨2, 2⟩ y [1, 2] ++
  [.deliver 3 ⟨1, 1, .accept (refReg [1]) ⟨2, 2⟩ y true 0⟩ 0]

/-- The tombstone is purged at two voters, and the second put creates the reference anew. -/
def recreated : List (Action Vars CatalogErr) :=
  let ans : Answer := ⟨1, 1, .readReply ⟨2, 2⟩ ⟨2, 2⟩ (tombstone ⟨2, 2⟩) true⟩
  ([1, 2, 3].flatMap fun w =>
    [.read w view (refReg [1]), .deliver w ⟨1, 1, .read (refReg [1])⟩ 0]) ++
  [.tryPurge view view view (refReg [1]) ⟨2, 2⟩ [(1, ans), (2, ans), (3, ans)],
    .deliver 1 ⟨1, 1, .purge (refReg [1]) ⟨2, 2⟩⟩ 0,
    .deliver 2 ⟨1, 1, .purge (refReg [1]) ⟨2, 2⟩⟩ 0] ++
  prepare 3 (refReg [1]) ⟨3, 3⟩ [(1, {}), (2, {})] ++
  accept 3 (refReg [1]) ⟨3, 3⟩ (written 8 ⟨3, 3⟩) [1, 2]

/-- The first put is accepted by voter 2 only, which then promises `(1, 3)` to the second put; the
delete is accepted by voters 2 and 3. -/
def deletedEarly : List (Action Vars CatalogErr) :=
  let x := written 9 ⟨1, 1⟩
  putDelete ++ prepare 1 (refReg [1]) ⟨1, 1⟩ [(1, {}), (2, {})] ++
  accept 1 (refReg [1]) ⟨1, 1⟩ x [2] ++
  prepare 3 (refReg [1]) ⟨1, 3⟩ [(2, ⟨⟨1, 1⟩, x, true⟩)] ++
  prepare 2 (refReg [1]) ⟨2, 2⟩ [(2, ⟨⟨1, 1⟩, x, true⟩), (3, {})] ++
  accept 2 (refReg [1]) ⟨2, 2⟩ (tombstone ⟨2, 2⟩) [2, 3]

/-- After the purge an old accept and an old prepare arrive. -/
def stragglers : List (Action Vars CatalogErr) :=
  let x := written 9 ⟨1, 1⟩
  [.deliver 1 ⟨1, 1, .accept (refReg [1]) ⟨1, 1⟩ x true 0⟩ 0,
    .deliver 1 ⟨1, 1, .prepare (refReg [1]) ⟨1, 3⟩⟩ 0,
    .hear 3 1 .first ⟨1, 1, .promise ⟨1, 1⟩ x true⟩]

end Trio

theorem buried_of_chosen_recreated : ∃ s s',
    run step (Trio.start Vars CatalogErr) Trio.deleted = some s ∧
    run step s Trio.recreated = some s' ∧
    Chosen Trio.view.voters s (refReg [1]) ⟨2, 2⟩ (Trio.tombstone ⟨2, 2⟩, true) ∧
    Chosen Trio.view.voters s' (refReg [1]) ⟨3, 3⟩ (Trio.written 8 ⟨3, 3⟩, true) ∧
    (∃ q ∈ s'.proposals, q.ballot = ⟨3, 3⟩ ∧ q.cur = {}) ∧
    Buried Trio.view.voters (refReg [1]) ⟨2, 2⟩ s s' := by
  obtain ⟨s, hs, hc, s', hs', hc', hq⟩ : ∃ s ∈ run step (Trio.start Vars CatalogErr) Trio.deleted,
      Chosen Trio.view.voters s (refReg [1]) ⟨2, 2⟩ (Trio.tombstone ⟨2, 2⟩, true) ∧
      ∃ s' ∈ run step s Trio.recreated,
        Chosen Trio.view.voters s' (refReg [1]) ⟨3, 3⟩ (Trio.written 8 ⟨3, 3⟩, true) ∧
        ∃ q ∈ s'.proposals, q.ballot = ⟨3, 3⟩ ∧ q.cur = {} := by
    decide +kernel
  exact ⟨s, s', hs, hs', hc, hc', hq, buried_of_chosen (Trio.start_initial _ _)
    (Trio.start_fixed _ _) (by decide +kernel) hs hc hs'⟩

/-- After a tombstone was chosen at `(2, 2)`, the value deleted is chosen at `(1, 1)`, and a
prepare round at `(1, 3)`, below the tombstone, returns it. -/
theorem older_chosen_after_delete :
    ∃ s ∈ run step (Trio.start Vars CatalogErr) Trio.deletedEarly,
      Chosen Trio.view.voters s (refReg [1]) ⟨2, 2⟩ (Trio.tombstone ⟨2, 2⟩, true) ∧
      ¬ Chosen Trio.view.voters s (refReg [1]) ⟨1, 1⟩ (Trio.written 9 ⟨1, 1⟩, true) ∧
      (∀ q ∈ s.proposals, q.ballot ≠ ⟨1, 3⟩) ∧
      ∃ s' ∈ run step s Trio.stragglers,
        Chosen Trio.view.voters s' (refReg [1]) ⟨1, 1⟩ (Trio.written 9 ⟨1, 1⟩, true) ∧
        ∃ q ∈ s'.proposals, q.ballot = ⟨1, 3⟩ ∧ q.cur = ⟨⟨1, 1⟩, Trio.written 9 ⟨1, 1⟩, true⟩ := by
  decide +kernel

section refDelete

variable {refs : Codec RefValue} {cond : Cond} {keyOf : Bytes → Bytes} {now : Ballot → ℤ}

theorem refDeleteFn_ok {env env' : Vars} {value : Bytes} {hasValue : Bool}
    (h : refDeleteFn refs cond keyOf now env cur b = (env', .ok (value, hasValue))) :
    value = refs.enc { deletedAt := now b, version := b.bytes } ∧ hasValue = true := by
  unfold refDeleteFn at h
  split at h
  · cases h
  · split at h
    · cases h
    · split at h
      · cases h
      · split_ifs at h <;> cases h
        exact ⟨rfl, rfl⟩

/-- The ballot a `RefDelete` answers is that of a tombstone chosen on the register. -/
theorem deleted_decided {s s₀ : State Vars CatalogErr} {as : List (Action Vars CatalogErr)}
    {i j : ℕ} {c d : Call Vars CatalogErr} {out settle : Outcome} (h₀ : Initial s₀)
    (hf : Fixed vs s₀) (hr : run step s₀ as = some s) (hc : s.calls i = some c)
    (hfn : c.fn = refDeleteFn refs cond keyOf now) (hp : c.phase = .done out.1 out.2)
    (hset : ∀ n k, out.2 = some (.round (.unknown n k)) →
      s.calls j = some d ∧ d.fn = identity ∧ d.reg = c.reg ∧ d.phase = .done settle.1 settle.2)
    (hok : refDelete refs out settle = .ok b) (hb : b ≠ ⊥) :
    ∃ value rv, Chosen vs s c.reg b (value, true) ∧ refs.dec value = some rv ∧
      rv.isTombstone = true := by
  obtain ⟨h, hvs⟩ := roundInv_run h₀ hf hr
  unfold refDelete at hok
  split at hok
  · rename_i herr
    rw [herr] at hp
    obtain ⟨q, -, -, -, hreg, hres, ⟨env, hcomp⟩, hch⟩ := h.success hvs hc hp
    rw [hfn] at hcomp
    obtain ⟨hv, hh⟩ := refDeleteFn_ok hcomp
    cases hok
    rw [hh, hv, hreg] at hch
    exact ⟨_, _, by rwa [hres], refs.dec_enc _, rfl⟩
  · cases hok
    exact absurd rfl hb
  · rename_i n k herr
    obtain ⟨hd, -, hreg, hp'⟩ := hset n k herr
    split at hok
    · rename_i rv hnone hdec
      split_ifs at hok with htomb
      cases hok
      rw [hnone] at hp'
      obtain ⟨q, -, -, -, hreg', hres, -, hch⟩ := h.success hvs hd hp'
      rw [hres] at hdec ⊢
      split_ifs at hdec with hval
      rw [hreg', hreg, show q.hasValue = true from hval] at hch
      exact ⟨_, rv, hch, hdec, htomb⟩
    · cases hok
  · cases hok

theorem deleted_decided_put :
    ∃ s, run step (Trio.start Vars CatalogErr) Trio.deleted = some s ∧
      ∃ value, Chosen Trio.view.voters s (refReg [1]) ⟨2, 2⟩ (value, true) := by
  let out : Outcome := (⟨⟨2, 2⟩, Trio.tombstone ⟨2, 2⟩, true⟩, none)
  obtain ⟨s, hs, hp⟩ : ∃ s ∈ run step (Trio.start Vars CatalogErr) Trio.deleted,
      ∀ c ∈ s.calls 2, c.phase = .done out.1 out.2 := by decide +kernel
  have h₀ := Trio.start_initial Vars CatalogErr
  have hf := Trio.start_fixed Vars CatalogErr
  have hm : .propose 2 2 (refReg [1]) (refDeleteFn refCodec { force := true } id fun _ => 5) 0 {} ∈
      Trio.deleted := by simp [Trio.deleted, Trio.putDelete]
  obtain ⟨c, hc, hreg, hfn⟩ := proposed_run h₀ hf hs hm
  obtain ⟨value, _, hch, _⟩ := deleted_decided (j := 2) (d := c) h₀ hf hs hc hfn (hp c hc)
    (by simp [out]) (show refDelete refCodec out out = .ok ⟨2, 2⟩ from rfl) (by decide)
  exact ⟨s, hs, value, hreg ▸ hch⟩

end refDelete

end Dstore

import Dstore.Proofs.Pledges

/-!
# Fast reads

A read that returns without settling has the word of a majority, each voter's at a moment of its
own. A ballot they report is chosen, and nothing above it was chosen before the read was issued.
Where they report none, there is one moment of the read at which nothing was chosen yet, or the last
value chosen was one that a purge erased.
-/

namespace Dstore

open Machine

variable {σ ε : Type} {s s₀ s' t t' : State σ ε} {as bs : List (Action σ ε)} {act : Action σ ε}
  {vs : List Voter} {v : View} {w : NodeID} {reg : Bytes} {b b' d : Ballot} {x y : Bytes × Bool}
  {row : Row} {e : Event} {log new : List Event}

/-- The ballot is chosen, and none above it is. -/
def LastChosen (vs : List Voter) (s : State σ ε) (reg : Bytes) (b : Ballot) : Prop :=
  (∃ x, Chosen vs s reg b x) ∧ ∀ b' x, Chosen vs s reg b' x → b' ≤ b

/-- Nothing is chosen for `reg`, or the last value chosen is one that some voter has been told to
purge by the end, in `s'`. -/
def Vacant (vs : List Voter) (s s' : State σ ε) (reg : Bytes) : Prop :=
  (∀ b x, ¬ Chosen vs s reg b x) ∨
    ∃ d, LastChosen vs s reg d ∧ ∃ w ∈ ids vs, Purged s'.log w reg d

/-- The ballot of an accept. -/
def Event.acceptOf (e : Event) : Option Ballot := e.msg.req.carried.map fun p => p.2.1

theorem Chosen.mem_log (h : Chosen vs s reg b x) : b ∈ s.log.filterMap Event.acceptOf := by
  obtain ⟨w, -, e, he, -, ⟨n, hm⟩, -⟩ := h.voted
  exact List.mem_filterMap.2 ⟨e, he, by simp [Event.acceptOf, hm, Req.carried]⟩

theorem Chosen.exists_last (h : Chosen vs s reg b x) : ∃ b', LastChosen vs s reg b' := by
  classical
  let S := (s.log.filterMap Event.acceptOf).toFinset.filter fun b => ∃ x, Chosen vs s reg b x
  have hmem : ∀ b, b ∈ S ↔ ∃ x, Chosen vs s reg b x := fun b => by
    refine ⟨fun hb => (Finset.mem_filter.1 hb).2, fun ⟨x, hx⟩ => ?_⟩
    exact Finset.mem_filter.2 ⟨List.mem_toFinset.2 hx.mem_log, x, hx⟩
  have hne : S.Nonempty := ⟨b, (hmem b).2 ⟨x, h⟩⟩
  refine ⟨S.max' hne, (hmem _).1 (S.max'_mem hne), fun b' x' hx' => ?_⟩
  exact S.le_max' b' ((hmem b').2 ⟨x', hx'⟩)

theorem Chosen.mono (h : Chosen vs s reg b x) (hs : ∀ e ∈ s.log, e ∈ s'.log) :
    Chosen vs s' reg b x := by
  obtain ⟨Q, hQ, hv⟩ := h
  exact ⟨Q, hQ, fun w hw => (hv w hw).mono hs⟩

theorem Lawful.voted_before {ids : List NodeID} (hl : Lawful ids (new ++ log)) (hw : w ∈ ids)
    (hp : Promised log w reg b' row) (hv : Voted (new ++ log) w reg b x) (hlt : b < b') :
    Voted log w reg b x := by
  obtain ⟨e, he, hvote⟩ := hv
  rcases List.mem_append.1 he with he | he
  · obtain ⟨mid, -, hok⟩ := hl.after he hvote.1 hw
    have hle := (hok.vote w reg b x hvote).2 b' row
      (hp.mono fun _ h => List.mem_append_right _ h)
    exact absurd hle (not_le.2 hlt)
  · exact ⟨e, he, hvote⟩

theorem voted_of_chosen_step (hs : Stepped t act t') (hn : ¬ Chosen vs t reg b x)
    (hc : Chosen vs t' reg b x) : ∃ e w, t'.log = e :: t.log ∧ e.IsVote w reg b x := by
  rcases log_step hs with hlog | ⟨u, m, now, -, -, hlog⟩
  · exact absurd (hc.mono fun e he => hlog ▸ he) hn
  · by_contra hno
    push Not at hno
    obtain ⟨Q, hQ, hv⟩ := hc
    refine hn ⟨Q, hQ, fun w hw => ?_⟩
    have hvote := hv w hw
    rw [hlog] at hvote
    exact (voted_cons.1 hvote).resolve_left (hno _ w hlog)

namespace Inv

theorem chosen_of_all (h : Inv vs s) {Q : Finset NodeID} (hQ : Majority.IsQuorum (ids vs) Q)
    (hall : ∀ u ∈ ids vs, ∃ y, Voted s.log u reg d y) : ∃ y, Chosen vs s reg d y := by
  obtain ⟨u, hu⟩ := hQ.nonempty
  obtain ⟨y, hy⟩ := hall u (hQ.subset u hu)
  refine ⟨y, Q, hQ, fun w hw => ?_⟩
  obtain ⟨y', hy'⟩ := hall w (hQ.subset w hw)
  exact h.voted_unique hy' hy ▸ hy'

/-- A voter that reports no row, though it had accepted a ballot, has been told to purge that ballot
or a later one, which every voter had accepted. -/
theorem erased (h : Inv vs s') (hlog : s'.log = since s s' ++ s.log) (hw : w ∈ ids vs)
    (hvote : Voted s.log w reg b x) (he : e ∈ since s s') (hn : e.node = w)
    (hrep : e.Reports reg row) (hz : row.accepted = ⊥) :
    ∃ d, b ≤ d ∧ Purged s'.log w reg d ∧ ∀ u ∈ ids vs, ∃ y, Voted s'.log u reg d y := by
  obtain ⟨mid, hsub, hok⟩ := (hlog ▸ h.lawful).after he hn hw
  have hmid : ∀ e ∈ mid ++ s.log, e ∈ s'.log := fun e he => by
    rw [hlog]
    exact (List.mem_append.1 he).elim (fun he => List.mem_append_left _ (hsub he))
      (List.mem_append_right _)
  have hrow := hok.report reg row hrep
  rw [hn] at hrow
  have hb : b ≠ ⊥ := h.voted_ne_bot (hvote.mono fun e he => hlog ▸ List.mem_append_right _ he)
  rcases hrow.high b x (hvote.mono fun e he => List.mem_append_right _ he) with
    hle | ⟨-, d, y, hle, hd, ep, hep, hp⟩
  · exact absurd (le_bot_iff.1 (hz ▸ hle)) hb
  · have hpurged : Purged s'.log w reg d := ⟨ep, hmid ep hep, hp⟩
    exact ⟨d, hle, hpurged, (h.purged_sent hpurged (h.voted_ne_bot (hd.mono hmid))).2⟩

/-- What all voters hold is the last that was chosen. -/
theorem last_of_all (h : Inv vs t') (h' : Inv vs s') (hs : Stepped t act t')
    (hn : ¬ Chosen vs t reg d x) (hc : Chosen vs t' reg d x) (hlog : s'.log = new ++ t'.log)
    (hall : ∀ u ∈ ids vs, ∃ y, Voted s'.log u reg d y) : LastChosen vs t' reg d := by
  refine ⟨⟨x, hc⟩, fun b' x' hc' => not_lt.1 fun hlt => hn ?_⟩
  obtain ⟨e, w₀, hcons, hvote⟩ := voted_of_chosen_step hs hn hc
  obtain ⟨q, hq, rfl, rfl, -⟩ := h.voted_proposal hc'.voted.choose_spec.2
  have hok := h.proposal q hq
  obtain ⟨P, hP, hprom, -⟩ := hok.quorum
  rw [h.voterIDs hok.view] at hP
  refine ⟨P, hP, fun w hw => ?_⟩
  obtain ⟨row, hrow, -⟩ := hprom w hw
  -- the step was a vote, so the promise is older, and the vote for `d` older still
  have hold : Promised t.log w q.reg q.ballot row := by
    have := promised_of_promisedTo hrow
    rw [hcons] at this
    refine (promised_cons.1 this).resolve_left fun hp => ?_
    exact absurd (hvote.2.2.symm.trans hp.2.2) (by simp)
  obtain ⟨y, hy⟩ := hall w (hP.subset w hw)
  have hlog' : s'.log = (new ++ [e]) ++ t.log := by rw [hlog, hcons]; simp
  obtain ⟨u, -, hu⟩ := hc.voted
  obtain rfl : y = x := h'.voted_unique hy (hu.mono fun _ he => hlog ▸ List.mem_append_right _ he)
  exact (hlog' ▸ h'.lawful).voted_before (hP.subset w hw) hold (hlog' ▸ hy) hlt

end Inv

/-- What a read issued in `s` that returns `row` by `s'`, after `bs`, is right about. -/
structure ReadOk (vs : List Voter) (reg : Bytes) (row : Row) (s s' : State σ ε)
    (bs : List (Action σ ε)) : Prop where
  /-- A ballot it reports is chosen, with the value it reports. -/
  decided : row.accepted ≠ ⊥ → Chosen vs s' reg row.accepted (row.value, row.hasValue)
  /-- Nothing above that ballot was chosen before. -/
  fresh : row.accepted ≠ ⊥ → ∀ b x, Chosen vs s reg b x → b ≤ row.accepted
  /-- Where it reports none, the register was empty at a moment of the read. -/
  absent : row.accepted = ⊥ → row = {} ∧ ∃ pre post t, bs = pre ++ post ∧
    run step s pre = some t ∧ run step t post = some s' ∧ Vacant vs t s' reg

section fastRead

variable (h₀ : Initial s₀) (hf : Fixed vs s₀) (hk : ∀ a ∈ as ++ bs, Kept a)
  (hr : run step s₀ as = some s) (hr' : run step s bs = some s')
include h₀ hf hk hr hr'

theorem vacant_of_purged {Q : Finset NodeID} (hQ : Majority.IsQuorum (ids vs) Q) (hw : w ∈ ids vs)
    (hp : Purged s'.log w reg d) (hall : ∀ u ∈ ids vs, ∃ y, Voted s'.log u reg d y)
    (hn : ∀ y, ¬ Chosen vs s reg d y) : ∃ pre post t, bs = pre ++ post ∧
      run step s pre = some t ∧ run step t post = some s' ∧ Vacant vs t s' reg := by
  obtain ⟨h', -⟩ := inv_run_kept h₀ hf hk (run_append.2 ⟨s, hr, hr'⟩)
  obtain ⟨y, hy⟩ := h'.chosen_of_all hQ hall
  obtain ⟨pre, a, post, t, t', rfl, h1, h2, h3, h4, h5⟩ :=
    exists_first (P := fun u => Chosen vs u reg d y) hr' (hn y) hy
  have hrun : run step s (pre ++ [a]) = some t' :=
    run_append.2 ⟨t, h1, run_cons.2 ⟨t', h2, run_nil t'⟩⟩
  have hk' : ∀ b ∈ as ++ (pre ++ [a]), Kept b := fun b hb => hk b (by
    simp only [List.mem_append, List.mem_cons] at hb ⊢
    tauto)
  obtain ⟨h, -⟩ := inv_run_kept h₀ hf hk' (run_append.2 ⟨s, hr, hrun⟩)
  refine ⟨pre ++ [a], post, t', by simp, hrun, h3, .inr ⟨d, ?_, w, hw, hp⟩⟩
  exact h.last_of_all h' (step_stepped h2) h4 h5 (log_run h3) hall

/-- Over every run of a fixed voter set without a lost database, with proposals and purges at any
moment: a fast read that returns without settling reports a chosen ballot, no older than what was
chosen before it was issued, or nothing, where the register was empty at a moment of the read. -/
theorem fastRead_linearizable (hv : v ∈ s'.views) {rs : List (NodeID × Option Answer)}
    (ha : Asked s s' v (.read reg) rs) (hrow : read v (rs.map Prod.snd) [] = .row row) :
    ReadOk vs reg row s s' bs := by
  obtain ⟨h, -⟩ := inv_run_kept h₀ hf hk (run_append.2 ⟨s, hr, hr'⟩)
  have hlog := log_run hr'
  obtain ⟨got, hnd, hlen, ⟨p₀, hp₀, rfl⟩, hgot⟩ := ha.read_row hrow
  have hQ : Majority.IsQuorum (ids vs) (got.map Prod.fst).toFinset := by
    refine ⟨fun w hw => ?_, ?_⟩
    · obtain ⟨p, hp, rfl⟩ := List.mem_map.1 (List.mem_toFinset.1 hw)
      exact h.voterIDs hv ▸ (hgot p hp).1
    · rw [List.toFinset_card_of_nodup hnd, List.length_map, ← h.voterIDs hv, ← View.quorum_eq]
      exact hlen
  have hfresh : ∀ b x, Chosen vs s reg b x → b ≤ p₀.2.accepted ∨ p₀.2 = {} := fun b x hc =>
    h.buried_read hc hlog hv ha hrow
  have hin : ∀ e ∈ since s s', e ∈ s'.log := fun e he => hlog ▸ List.mem_append_left _ he
  refine ⟨fun hne => ⟨_, hQ, fun w hw => ?_⟩, fun hne b x hc => ?_, fun hz => ?_⟩
  · have hvoted : ∀ p ∈ got, Voted s'.log p.1 reg p₀.2.accepted (p.2.value, p.2.hasValue) := by
      intro p hp
      obtain ⟨hid, hacc, e, he, hn, hrep⟩ := hgot p hp
      rw [← hacc] at hne ⊢
      exact h.lawful.report_voted (h.voterIDs hv ▸ hid) (hin e he) hn hrep hne
    obtain ⟨p, hp, rfl⟩ := List.mem_map.1 (List.mem_toFinset.1 hw)
    exact h.voted_unique (hvoted p hp) (hvoted p₀ hp₀) ▸ hvoted p hp
  · exact (hfresh b x hc).resolve_right fun hz => hne (by rw [hz])
  · have hempty : p₀.2 = {} := by
      obtain ⟨hid, -, e, he, hn, hrep⟩ := hgot p₀ hp₀
      obtain ⟨mid, -, hok⟩ := (hlog ▸ h.lawful).after he hn (h.voterIDs hv ▸ hid)
      exact (hok.report reg _ hrep).eq_empty hz
    refine ⟨hempty, ?_⟩
    by_cases hany : ∃ b x, Chosen vs s reg b x
    · obtain ⟨b, x, hc⟩ := hany
      obtain ⟨b₀, ⟨x₀, hc₀⟩, hlast⟩ := hc.exists_last
      obtain ⟨P, hP, hvotes⟩ := hc₀
      obtain ⟨w, hw, hwP⟩ := hQ.exists_mem hP
      obtain ⟨p, hp, rfl⟩ := List.mem_map.1 (List.mem_toFinset.1 hw)
      obtain ⟨-, hacc, e, he, hn, hrep⟩ := hgot p hp
      obtain ⟨d, hle, hp, hall⟩ := h.erased hlog (hQ.subset _ hw) (hvotes _ hwP) he hn hrep
        (hacc.trans hz)
      by_cases hd : ∃ y, Chosen vs s reg d y
      · obtain ⟨y, hy⟩ := hd
        obtain rfl : d = b₀ := le_antisymm (hlast d y hy) hle
        exact ⟨[], bs, s, rfl, run_nil s, hr', .inr ⟨d, ⟨⟨y, hy⟩, hlast⟩, _, hQ.subset _ hw, hp⟩⟩
      · exact vacant_of_purged h₀ hf hk hr hr' hQ (hQ.subset _ hw) hp hall fun y hy => hd ⟨y, hy⟩
    · push Not at hany
      exact ⟨[], bs, s, rfl, run_nil s, hr', .inl hany⟩

end fastRead

namespace Trio

/-- Two of the voters are asked for the register. -/
def readTwo : List (Action Vars CatalogErr) :=
  [1, 2].flatMap fun w =>
    [.read w view (refReg [1]), .deliver w ⟨1, 1, .read (refReg [1])⟩ 0]

/-- All voters hold the tombstone, and two of them purge it. -/
def purged : List (Action Vars CatalogErr) :=
  let ans : Answer := ⟨1, 1, .readReply ⟨2, 2⟩ ⟨2, 2⟩ (tombstone ⟨2, 2⟩) true⟩
  readTwo ++ [.read 3 view (refReg [1]), .deliver 3 ⟨1, 1, .read (refReg [1])⟩ 0,
    .tryPurge view view view (refReg [1]) ⟨2, 2⟩ [(1, ans), (2, ans), (3, ans)],
    .deliver 1 ⟨1, 1, .purge (refReg [1]) ⟨2, 2⟩⟩ 0,
    .deliver 2 ⟨1, 1, .purge (refReg [1]) ⟨2, 2⟩⟩ 0]

/-- The same row from two voters. -/
def both (row : Row) : List (NodeID × Option Answer) :=
  let ans : Answer := ⟨1, 1, .readReply row.accepted row.accepted row.value row.hasValue⟩
  [(1, some ans), (2, some ans)]

end Trio

theorem fastRead_linearizable_deleted :
    let row : Row := ⟨⟨2, 2⟩, Trio.tombstone ⟨2, 2⟩, true⟩
    ∃ s s', run step (Trio.start Vars CatalogErr) Trio.deleted = some s ∧
      run step s Trio.readTwo = some s' ∧
      read Trio.view ((Trio.both row).map Prod.snd) [] = .row row ∧
      ReadOk Trio.view.voters (refReg [1]) row s s' Trio.readTwo := by
  intro row
  obtain ⟨s, hs, s', hs', hv, ha⟩ :
      ∃ s ∈ run step (Trio.start Vars CatalogErr) Trio.deleted, ∃ s' ∈ run step s Trio.readTwo,
        Trio.view ∈ s'.views ∧ Asked s s' Trio.view (.read (refReg [1])) (Trio.both row) := by
    decide +kernel
  have hrow : read Trio.view ((Trio.both row).map Prod.snd) [] = .row row := by decide +kernel
  exact ⟨s, s', hs, hs', hrow, fastRead_linearizable (Trio.start_initial _ _)
    (Trio.start_fixed _ _) (by decide +kernel) hs hs' hv ha hrow⟩

/-- A read after the purge of a tombstone reports the zero ballot, though the tombstone, and the
value before it, were chosen before the read was issued. -/
theorem fastRead_after_purge :
    ∃ s ∈ run step (Trio.start Vars CatalogErr) (Trio.deleted ++ Trio.purged),
      ∃ s' ∈ run step s Trio.readTwo,
        Chosen Trio.view.voters s (refReg [1]) ⟨2, 2⟩ (Trio.tombstone ⟨2, 2⟩, true) ∧
        Asked s s' Trio.view (.read (refReg [1])) (Trio.both {}) ∧
        read Trio.view ((Trio.both {}).map Prod.snd) [] = .row {} ∧
        ({} : Row).accepted < ⟨2, 2⟩ := by
  decide +kernel

end Dstore

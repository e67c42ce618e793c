import Dstore.Proofs.History
import Dstore.Proofs.Steps

/-!
# The voters through a run

With a fixed voter set, every voter is intact or has lost its database, and then it has no marker
and reports nothing.
-/

namespace Dstore

variable {σ ε : Type} {s s' : State σ ε} {act : Action σ ε} {vs : List Voter} {v : View}
  {w : NodeID} {m : Msg} {reg : Bytes} {b b' : Ballot} {x : Bytes × Bool} {cur : Row}
  {a a' : Acceptor} {ans : Answer} {log : List Event}

/-- The ids of the voters. -/
def ids (vs : List Voter) : List NodeID := vs.map Voter.id

/-- A voter that has lost its database gets no accept below one of its promises. -/
def Honest (s : State σ ε) : Action σ ε → Prop
  | .deliver w m _ => w ∈ s.lost → ∀ p ∈ m.req.carried, ∀ e ∈ s.log, e.node = w →
      ∀ r ∈ e.promised, r.1 = p.1 → r.2 ≤ p.2.1
  | _ => True

instance : ∀ (s : State σ ε) (a : Action σ ε), Decidable (Honest s a)
  | s, .deliver w m _ => inferInstanceAs (Decidable (w ∈ s.lost → ∀ p ∈ m.req.carried,
      ∀ e ∈ s.log, e.node = w → ∀ r ∈ e.promised, r.1 = p.1 → r.2 ≤ p.2.1))
  | _, .propose _ _ _ _ _ _ | _, .attempt _ _ _ | _, .stop _ _ | _, .hear _ _ _ _
  | _, .fail _ _ _ | _, .close _ | _, .wake _ | _, .install _ _ | _, .read _ _ _
  | _, .scan _ _ _ _ _ | _, .tryPurge _ _ _ _ _ _ | _, .wipe _ => .isTrue trivial

theorem Honest.le {now : ℤ} (h : Honest s (.deliver w m now)) (hw : w ∈ s.lost)
    {value : Bytes} {hasValue : Bool} {notAfter : ℤ} {p : Ballot} {row : Row}
    (hm : m.req = .accept reg b value hasValue notAfter) (hp : Promised s.log w reg p row) :
    p ≤ b := by
  obtain ⟨e, he, hn, hreq, hrep⟩ := hp
  refine h hw (reg, b, value, hasValue) (by simp [Req.carried, hm]) e he hn (reg, p) ?_ rfl
  simp [Event.promised, hreq, hrep]

/-- A majority has accepted the value at this ballot. -/
def Chosen (vs : List Voter) (s : State σ ε) (reg : Bytes) (b : Ballot) (x : Bytes × Bool) : Prop :=
  ∃ Q, Majority.IsQuorum (ids vs) Q ∧ ∀ w ∈ Q, Voted s.log w reg b x

theorem Chosen.voted (h : Chosen vs s reg b x) : ∃ w ∈ ids vs, Voted s.log w reg b x := by
  obtain ⟨Q, hQ, hv⟩ := h
  obtain ⟨w, hw⟩ := hQ.nonempty
  exact ⟨w, hQ.subset w hw, hv w hw⟩

instance : Decidable (Chosen vs s reg b x) :=
  decidable_of_iff (Majority.quorum (ids vs).length ≤
      ((ids vs).toFinset.filter fun w => Voted s.log w reg b x).card) <| by
    constructor
    · intro h
      exact ⟨_, ⟨fun w hw => List.mem_toFinset.1 (Finset.mem_filter.1 hw).1, h⟩,
        fun w hw => (Finset.mem_filter.1 hw).2⟩
    · rintro ⟨Q, hQ, hv⟩
      exact hQ.card.trans (Finset.card_le_card fun w hw =>
        Finset.mem_filter.2 ⟨List.mem_toFinset.2 (hQ.subset w hw), hv w hw⟩)

/-- What the voters keep. -/
structure VoterInv (vs : List Voter) (s : State σ ε) : Prop where
  voters : ∀ v ∈ s.views, v.voters = vs
  self : ∀ w, (s.acc w).self = w
  installed : ∀ w v, (s.acc w).installed = some v → v ∈ s.views
  acceptor : ∀ w ∈ ids vs, Intact s.log w (s.acc w) ∨ w ∈ s.lost ∧ (s.acc w).marker = none
  lawful : Lawful (ids vs) s.log
  purge : ∀ w m reg b, (w, m) ∈ s.sent → m.req = .purge reg b → b ≠ ⊥ →
    ∀ u ∈ ids vs, ∃ x, Voted s.log u reg b x

theorem Acceptor.Served.fields {r : Reply} (h : a.Served m a' r)
    (hm : ∀ since, m.req ≠ .marker since) :
    a'.self = a.self ∧ a'.marker = a.marker ∧
      (a'.installed = a.installed ∨ ∃ v, m.req = .install v ∧ a'.installed = some v) := by
  cases h with
  | @installed v hv =>
    obtain ⟨h1, h2, h3⟩ := a.install_fields v
    exact ⟨h1, h2, h3.imp id fun h => ⟨v, hv, h⟩⟩
  | marked hv => exact absurd hv (hm _)
  | @purged reg b hv =>
    rcases a.purge_cases reg b with hc | ⟨-, -, ⟨-, hc⟩ | hc⟩ <;> rw [hc] <;>
      exact ⟨rfl, rfl, .inl rfl⟩
  | _ => exact ⟨rfl, rfl, .inl rfl⟩

/-- A voter without a marker only votes, and votes above its promises by hypothesis. -/
theorem eventOk_of_marker_none (hs : a.Served m a' ans.reply) (hmark : a.marker = none)
    (hinst : ∀ v, a.installed = some v → v.isVoter a.self)
    (hb : ∀ reg b value hasValue notAfter, m.req = .accept reg b value hasValue notAfter →
      ∀ p row, Promised log w reg p row → p ≤ b) : EventOk log ⟨w, m, ans⟩ := by
  have hforget : a.AtEpoch m → a.refuseIfForgetful ≠ none := fun ⟨v, hv, _⟩ =>
    Acceptor.refuse_of_marker_none hv (hinst v hv) hmark
  generalize hr : ans.reply = r at hs
  have hquiet : (∀ acc val has, r ≠ .promise acc val has) →
      (∀ acc p val has, r ≠ .readReply acc p val has) →
      (∀ rows more next, r ≠ .scanReply rows more next) →
      (∀ w' reg p row, ¬ Event.IsPromise ⟨w, m, ans⟩ w' reg p row) ∧
        ∀ reg row, ¬ Event.Reports ⟨w, m, ans⟩ reg row := by
    refine fun h1 h2 h3 => ⟨fun w' reg p row h => h1 _ _ _ (hr.symm.trans h.2.2), ?_⟩
    rintro reg row (⟨-, h⟩ | ⟨-, h⟩ | ⟨h, -⟩)
    · exact h1 _ _ _ (hr.symm.trans h)
    · exact h2 _ _ _ _ (hr.symm.trans h)
    · exact h3 _ _ _ (hr.symm.trans h)
  have hsilent : r ≠ .accepted → ∀ w' reg b x, ¬ Event.IsVote ⟨w, m, ans⟩ w' reg b x :=
    fun h w' reg b x hv => h (hr.symm.trans hv.2.2)
  cases hs with
  | promised hm he hf hlt => exact absurd hf (hforget he)
  | read hm he hf => exact absurd hf (hforget he)
  | scanned hm he hf => exact absurd hf (hforget he)
  | @accepted reg b value hasValue notAfter hm he hne hp ha =>
    obtain ⟨h1, h2⟩ := hquiet (by simp) (by simp) (by simp)
    refine ⟨fun reg row h => absurd h (h2 reg row),
      fun w' reg p row h => absurd h (h1 w' reg p row),
      ?_⟩
    rintro w' reg' b' x' ⟨rfl, ⟨n', hm'⟩, -⟩
    have heq := hm'.symm.trans hm
    simp only [Req.accept.injEq] at heq
    obtain ⟨rfl, rfl, -⟩ := heq
    exact ⟨hne, fun p row hpr => hb _ _ _ _ _ hm p row hpr⟩
  | @purged reg b hm =>
    have hne : (a.purge reg b).2 ≠ .accepted ∧ (∀ acc val has, (a.purge reg b).2 ≠
        .promise acc val has) ∧ (∀ acc p val has, (a.purge reg b).2 ≠ .readReply acc p val has) ∧
        ∀ rows more next, (a.purge reg b).2 ≠ .scanReply rows more next := by
      rcases a.purge_reply reg b with h | ⟨code, text, v, h⟩ <;> simp [h]
    obtain ⟨h1, h2⟩ := hquiet hne.2.1 hne.2.2.1 hne.2.2.2
    exact .of_silent (hsilent hne.1) h1 h2
  | _ =>
    obtain ⟨h1, h2⟩ := hquiet (by simp) (by simp) (by simp)
    exact .of_silent (hsilent (by simp)) h1 h2

theorem isVoter_of_mem (hv : v.voters = vs) (hw : w ∈ ids vs) : v.isVoter w := by
  obtain ⟨vo, hvo, rfl⟩ := List.mem_map.1 hw
  exact List.any_eq_true.2 ⟨vo, hv ▸ hvo, by simp⟩

/-- A voter's answer is right about the history before it, and leaves the voter intact or
without a marker as it was. -/
theorem VoterInv.answer (h : VoterInv vs s) (hw : w ∈ ids vs) (hm : SentOk s w m)
    (hs : (s.acc w).Served m a' ans.reply) {now : ℤ} (hb : Honest s (.deliver w m now)) :
    (Intact (⟨w, m, ans⟩ :: s.log) w a' ∨ w ∈ s.lost ∧ a'.marker = none) ∧
      EventOk s.log ⟨w, m, ans⟩ := by
  have hvoter : ∀ v ∈ s.views, v.isVoter (s.acc w).self := fun v hv => by
    rw [h.self w]
    exact isVoter_of_mem (h.voters v hv) hw
  have hseed : ∀ rows, m.req ≠ .seed rows := fun rows hr => by simp [SentOk, hr] at hm
  have hmark : ∀ since, m.req ≠ .marker since := fun since hr => by simp [SentOk, hr] at hm
  rcases h.acceptor w hw with hi | ⟨hlost, hnone⟩
  · have hinst : ∀ v, m.req = .install v → v.isVoter (s.acc w).self := fun v hr => by
      rw [SentOk, hr] at hm
      exact hvoter v hm
    obtain ⟨h1, h2⟩ := hi.served hs hinst hseed
    exact ⟨.inl h1, h2⟩
  · exact ⟨.inr ⟨hlost, (hs.fields hmark).2.1.trans hnone⟩, eventOk_of_marker_none hs hnone
      (fun v hv => hvoter v (h.installed w v hv)) fun _ _ _ _ _ hm _ _ hp => hb.le hlost hm hp⟩

/-- A delivery keeps what the voters hold. -/
theorem VoterInv.deliver (h : VoterInv vs s) (hr : RoundInv s) (hm : (w, m) ∈ s.sent) {now : ℤ}
    (hb : Honest s (.deliver w m now)) : VoterInv vs (s.deliver w m now) := by
  have hsent := hr.sent w m hm
  have hmark : ∀ since, m.req ≠ .marker since := fun since hr => by simp [SentOk, hr] at hsent
  rcases hh : (s.acc w).handle now m with ⟨a', ans⟩
  have hs := Acceptor.handle_served hh
  have hacc : ∀ u, (s.deliver w m now).acc u = Function.update s.acc w a' u := fun u => by
    simp [State.deliver, hh]
  have hlog : (s.deliver w m now).log = ⟨w, m, ans⟩ :: s.log := by simp [State.deliver, hh]
  obtain ⟨hself, hmk, hinst⟩ := hs.fields hmark
  refine ⟨h.voters, fun u => ?_, fun u v hu => ?_, fun u hu => ?_, ?_,
    fun u m' reg b hu hp hne k hk => ?_⟩
  · rw [hacc]
    by_cases hu : u = w
    · subst hu
      simpa using hself.trans (h.self u)
    · rw [Function.update_of_ne hu]
      exact h.self u
  · rw [hacc] at hu
    by_cases huw : u = w
    · subst huw
      rw [Function.update_self] at hu
      rcases hinst with hi | ⟨v', hv', hi⟩
      · exact h.installed u v (hi ▸ hu)
      · obtain rfl := Option.some.inj (hi.symm.trans hu)
        rw [SentOk, hv'] at hsent
        exact hsent
    · rw [Function.update_of_ne huw] at hu
      exact h.installed u v hu
  · rw [hacc, hlog]
    by_cases huw : u = w
    · subst huw
      rw [Function.update_self]
      exact (h.answer hu hsent hs hb).1
    · rw [Function.update_of_ne huw]
      exact (h.acceptor u hu).imp (fun hi => hi.cons_of_ne (Ne.symm huw)) id
  · rw [hlog]
    exact ⟨fun hw => (h.answer hw hsent hs hb).2, h.lawful⟩
  · rw [hlog]
    exact (h.purge u m' reg b hu hp hne k hk).imp fun x hx => voted_cons.2 (.inr hx)

theorem readRow_eq_some {row : Row} (h : readRow v ans = some row) :
    ∃ p, ans = ⟨v.incarnation, v.epoch, .readReply row.accepted p row.value row.hasValue⟩ := by
  unfold readRow at h
  split at h
  · rename_i acc p val has hc
    cases h
    exact ⟨p, classify_ok hc⟩
  · cases h

theorem readAll_sublist (v : View) :
    ∀ replies, ((readAll v replies).map Prod.fst).Sublist (replies.map Prod.fst)
  | [] => by simp [readAll]
  | p :: ps => by
    have ih := readAll_sublist v ps
    rw [readAll] at ih ⊢
    rw [List.filterMap_cons, List.map_cons]
    cases readRow v p.2 with
    | none => exact ih.cons _
    | some row => exact ih.cons_cons _

theorem VoterInv.purgeable (h : VoterInv vs s) {cur : View} {replies : List (NodeID × Answer)}
    (hv : v ∈ s.views) (hcur : cur ∈ s.views) (hnd : (replies.map Prod.fst).Nodup)
    (hlog : ∀ p ∈ replies, p.1 ∈ v.voterIDs ∧
      ⟨p.1, ⟨v.incarnation, v.epoch, .read reg⟩, p.2⟩ ∈ s.log)
    (hb : purgeable cur b (readAll v replies) = true) (hne : b ≠ ⊥) :
    ∀ u ∈ ids vs, ∃ x, Voted s.log u reg b x := by
  simp only [Dstore.purgeable, decide_eq_true_eq, h.voters cur hcur] at hb
  have hids : v.voterIDs = ids vs := by rw [View.voterIDs, h.voters v hv, ids]
  have hrow : ∀ p ∈ readAll v replies, p.1 ∈ ids vs ∧ ∃ x, Voted s.log p.1 reg b x := by
    intro p hp
    obtain ⟨⟨id, ans⟩, hmem, hf⟩ := List.mem_filterMap.1 hp
    obtain ⟨row, hr, rfl⟩ := Option.map_eq_some_iff.1 hf
    obtain ⟨hid, hev⟩ := hlog _ hmem
    obtain ⟨prom, rfl⟩ := readRow_eq_some hr
    have hacc : row.accepted = b := hb.2 _ hp
    rw [hids] at hid
    exact ⟨hid, _, hacc ▸ h.lawful.report_voted hid hev rfl (.read rfl rfl) (hacc ▸ hne)⟩
  have hnd' := hnd.sublist (readAll_sublist v replies)
  have hall : (ids vs).toFinset ⊆ ((readAll v replies).map Prod.fst).toFinset := by
    refine (Finset.eq_of_subset_of_card_le (fun k hk => ?_) ?_).ge
    · obtain ⟨p, hp, rfl⟩ := List.mem_map.1 (List.mem_toFinset.1 hk)
      exact List.mem_toFinset.2 (hrow p hp).1
    · rw [List.toFinset_card_of_nodup hnd', List.length_map]
      refine (ids vs).toFinset_card_le.trans ?_
      simpa [ids] using hb.1
  intro u hu
  obtain ⟨p, hp, rfl⟩ := List.mem_map.1 (List.mem_toFinset.1 (hall (List.mem_toFinset.2 hu)))
  exact (hrow p hp).2

/-- Every step that hands no accept to a voter that forgot a promise above it keeps the voters'
state and history. -/
theorem VoterInv.step (h : VoterInv vs s) (hr : RoundInv s) (hs : Stepped s act s')
    (hb : Honest s act) : VoterInv vs s' := by
  cases hs with
  | @turn _ i c ht =>
    refine ⟨h.voters, h.self, h.installed, h.acceptor, h.lawful, fun w m reg b hm hp => ?_⟩
    rcases List.mem_append.1 hm with hm | hm
    · unfold Call.outbox at hm
      split at hm
      · rename_i v b' pending r hph
        obtain ⟨⟨id, st⟩, -, he⟩ := List.mem_map.1 hm
        simp only [Prod.mk.injEq] at he
        obtain ⟨rfl, rfl⟩ := he
        cases st <;> cases r <;> simp [Call.msg, Call.req] at hp
      · simp at hm
    · exact h.purge w m reg b hm hp
  | @attempt i c v b hc hp hv hn hcount hl =>
    refine ⟨h.voters, h.self, h.installed, h.acceptor, h.lawful, fun w m reg b' hm hpur => ?_⟩
    rcases List.mem_append.1 hm with hm | hm
    · simp only [Call.outbox, Call.broadcast, List.map_map] at hm
      obtain ⟨id, -, he⟩ := List.mem_map.1 hm
      simp only [Function.comp_apply, Prod.mk.injEq] at he
      obtain ⟨rfl, rfl⟩ := he
      simp [Call.msg, Call.req] at hpur
    · exact h.purge w m reg b' hm hpur
  | @ask _ w v m hv hm =>
    refine ⟨h.voters, h.self, h.installed, h.acceptor, h.lawful, fun w' m' reg b hm' hp => ?_⟩
    rcases List.mem_cons.1 hm' with hm' | hm'
    · simp only [Prod.mk.injEq] at hm'
      obtain ⟨rfl, rfl⟩ := hm'
      rcases hm with hm | ⟨reg', hm⟩ | ⟨pre, after, limit, hm⟩ <;> simp [hm] at hp
    · exact h.purge w' m' reg b hm' hp
  | @purge v cur pv reg b replies hv hcur hpv hnd hlog hp' =>
    refine ⟨h.voters, h.self, h.installed, h.acceptor, h.lawful, fun w m reg' b' hm hp hne => ?_⟩
    rcases List.mem_append.1 hm with hm | hm
    · obtain ⟨id, -, he⟩ := List.mem_map.1 hm
      simp only [Prod.mk.injEq] at he
      obtain ⟨rfl, rfl⟩ := he
      simp only [Req.purge.injEq] at hp
      obtain ⟨rfl, rfl⟩ := hp
      exact h.purgeable hv hcur hnd hlog hp' hne
    · exact h.purge w m reg' b' hm hp hne
  | deliver hm => exact h.deliver hr hm hb
  | @wipe w =>
    refine ⟨h.voters, fun u => ?_, fun u v hu => ?_, fun u hu => ?_, h.lawful, h.purge⟩ <;>
      by_cases huw : u = w
    · subst huw
      simp
    · simpa [Function.update_of_ne huw] using h.self u
    · subst huw
      simp at hu
    · exact h.installed u v (by simpa [Function.update_of_ne huw] using hu)
    · subst huw
      exact .inr ⟨by simp, by simp⟩
    · rcases h.acceptor u hu with hi | ⟨h1, h2⟩
      · exact .inl (by simpa [Function.update_of_ne huw] using hi)
      · exact .inr ⟨by simp [h1], by simpa [Function.update_of_ne huw] using h2⟩

theorem intact_nil (hr : ∀ reg, a.rows.get reg = none) : Intact [] w a := by
  have hrow : ∀ reg, a.row reg = {} := fun reg => by simp [Acceptor.row, hr]
  refine ⟨fun reg => ?_, fun reg => ?_, ?_, ?_⟩
  · rw [hrow]
    exact ⟨fun h => absurd rfl h, fun _ => ⟨rfl, rfl⟩, by simp [Voted]⟩
  · rw [hrow]
    exact bot_le
  · simp [Voted]
  · simp [Promised]

theorem VoterInv.init (h : Initial s) (hf : Fixed vs s) : VoterInv vs s := by
  refine ⟨hf.voters, h.self, h.installed, fun w _ => .inl ?_, ?_, ?_⟩
  · rw [h.log]
    exact intact_nil (h.rows w)
  · rw [h.log]
    trivial
  · simp [h.sent]

end Dstore

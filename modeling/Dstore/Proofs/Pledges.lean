import Dstore.Proofs.Purge

/-!
# What a voter is held to

A voter is held to the ballots it promised or accepted: its promise is at or above them, and if it
has no row any more they were erased by a purge of a ballot at or above them.
-/

namespace Dstore

open Machine

variable {σ ε : Type} {s s₀ s' : State σ ε} {as bs : List (Action σ ε)} {act : Action σ ε}
  {vs : List Voter} {v : View} {w : NodeID} {reg : Bytes} {b b' : Ballot} {x : Bytes × Bool}
  {row cur : Row} {e : Event} {log log' new : List Event} {a a' : Acceptor} {m : Msg}
  {ans : Answer} {i : ℕ} {c : Call σ ε} {q : Proposal}

/-- The event is a promise or a vote. -/
def Event.IsPledge (e : Event) (w : NodeID) (reg : Bytes) (b : Ballot) : Prop :=
  (∃ row, e.IsPromise w reg b row) ∨ ∃ x, e.IsVote w reg b x

/-- The acceptor has promised or accepted the ballot. -/
def Pledged (log : List Event) (w : NodeID) (reg : Bytes) (b : Ballot) : Prop :=
  ∃ e ∈ log, e.IsPledge w reg b

/-- What the acceptor pledged was purged with a later vote. -/
def Erased (log : List Event) (w : NodeID) (reg : Bytes) (b : Ballot) : Prop :=
  ∃ d y, b ≤ d ∧ Voted log w reg d y ∧ Purged log w reg d

theorem Promised.pledged (h : Promised log w reg b row) : Pledged log w reg b :=
  h.imp fun _ he => ⟨he.1, .inl ⟨row, he.2⟩⟩

theorem Voted.pledged (h : Voted log w reg b x) : Pledged log w reg b :=
  h.imp fun _ he => ⟨he.1, .inr ⟨x, he.2⟩⟩

theorem Pledged.mono (h : Pledged log w reg b) (hs : ∀ e ∈ log, e ∈ log') :
    Pledged log' w reg b :=
  h.imp fun e he => ⟨hs e he.1, he.2⟩

theorem Erased.mono (h : Erased log w reg b) (hs : ∀ e ∈ log, e ∈ log') : Erased log' w reg b := by
  obtain ⟨d, y, hle, hv, e, he, hp⟩ := h
  exact ⟨d, y, hle, hv.mono hs, e, hs e he, hp⟩

theorem Intact.pledged_le (h : Intact log w a) (hp : Pledged log w reg b) :
    b ≤ a.promisedOn reg := by
  obtain ⟨e, he, ⟨row, hprom⟩ | ⟨x, hvote⟩⟩ := hp
  · exact h.promise_le reg b row ⟨e, he, hprom⟩
  · exact h.vote_le reg b x ⟨e, he, hvote⟩

/-- A register without a row has no pledge that was not erased. -/
def Bare (log : List Event) (w : NodeID) (a : Acceptor) : Prop :=
  ∀ reg, a.rows.get reg = none → ∀ b, Pledged log w reg b → Erased log w reg b

section served

variable (h : Bare log w a)
include h

theorem Bare.cons (hk : ∀ reg, a'.rows.get reg = none →
    a.rows.get reg = none ∧ ∀ b, ¬ e.IsPledge w reg b) : Bare (e :: log) w a' := by
  rintro reg hnone b ⟨e', he', hp⟩
  obtain ⟨hold, hno⟩ := hk reg hnone
  rcases List.mem_cons.1 he' with rfl | he'
  · exact absurd hp (hno b)
  · exact (h reg hold b ⟨e', he', hp⟩).mono fun _ => List.mem_cons_of_mem _

theorem Bare.writeRow {r : AcceptorRow} (hreg : ∀ reg' b, e.IsPledge w reg' b → reg' = reg) :
    Bare (e :: log) w (a.writeRow reg r) := by
  refine h.cons fun reg' hnone => ?_
  have hne : reg' ≠ reg := by
    rintro rfl
    simp [Acceptor.writeRow] at hnone
  rw [Acceptor.writeRow, KV.get_set_of_ne _ _ hne] at hnone
  exact ⟨hnone, fun b hp => hne (hreg reg' b hp)⟩

/-- A purge erases what it takes away. -/
theorem Bare.purge (hi : Intact log w a) (he : e.IsPurge w reg b)
    (hno : ∀ reg b, ¬ e.IsPledge w reg b) : Bare (e :: log) w (a.purge reg b).1 := by
  have hsame : Bare (e :: log) w a := h.cons fun reg' hnone => ⟨hnone, hno reg'⟩
  rcases a.purge_cases reg b with hc | ⟨hb, hacc, ⟨hprom, hc⟩ | hc⟩ <;> rw [hc]
  · exact hsame
  · intro reg' hnone b' hp
    by_cases hreg : reg' = reg
    · subst hreg
      obtain ⟨e', he', hp⟩ := hp
      rcases List.mem_cons.1 he' with rfl | he'
      · exact absurd hp (hno reg' b')
      · have hvote := (hi.row reg').vote (by simpa [AcceptorRow.toRow, hacc] using hb)
        rw [AcceptorRow.toRow, hacc] at hvote
        exact ⟨b, _, hprom ▸ hi.pledged_le ⟨e', he', hp⟩, voted_cons.2 (.inr hvote),
          purged_cons.2 (.inl he)⟩
    · exact hsame reg' (by rwa [KV.get_delete_of_ne _ hreg] at hnone) b' hp
  · exact h.writeRow fun reg' b' hp => absurd hp (hno reg' b')

/-- Whatever an acceptor serves leaves no pledge without a row. -/
theorem Bare.served (hi : Intact log w a) (hs : a.Served m a' ans.reply)
    (hinst : ∀ v, m.req = .install v → v.isVoter a.self) (hseed : ∀ rows, m.req ≠ .seed rows) :
    Bare (⟨w, m, ans⟩ :: log) w a' := by
  have hquiet : (∀ acc val has, ans.reply ≠ .promise acc val has) → ans.reply ≠ .accepted →
      ∀ reg b, ¬ Event.IsPledge ⟨w, m, ans⟩ w reg b := by
    rintro h1 h2 reg b (⟨row, hp⟩ | ⟨x, hv⟩)
    · exact h1 _ _ _ hp.2.2
    · exact h2 hv.2.2
  have hsame : (∀ acc val has, ans.reply ≠ .promise acc val has) → ans.reply ≠ .accepted →
      a'.rows = a.rows → Bare (⟨w, m, ans⟩ :: log) w a' := fun h1 h2 hr =>
    h.cons fun reg hnone => ⟨hr ▸ hnone, hquiet h1 h2 reg⟩
  generalize hr : ans.reply = r at hs
  rw [hr] at hquiet hsame
  cases hs with
  | @promised reg p hm =>
    refine h.writeRow ?_
    rintro reg' b' (⟨row, -, hm', -⟩ | ⟨x, -, ⟨n, hm'⟩, -⟩) <;> have := hm'.symm.trans hm
    · simp only [Req.prepare.injEq] at this
      exact this.1
    · cases this
  | @accepted reg p value hasValue notAfter hm =>
    refine h.writeRow ?_
    rintro reg' b' (⟨row, -, hm', -⟩ | ⟨x, -, ⟨n, hm'⟩, -⟩) <;> have := hm'.symm.trans hm
    · cases this
    · simp only [Req.accept.injEq] at this
      exact this.1
  | @scanned pre after limit hm he hf =>
    rw [Acceptor.scan_eq pre after limit hf] at hsame
    exact hsame (by simp) (by simp) rfl
  | @installed v hm => exact hsame (by simp) (by simp) (Acceptor.install_of_isVoter (hinst v hm)).1
  | seeded hm => exact absurd hm (hseed _)
  | @purged reg p hm =>
    rcases a.purge_reply reg p with hk | ⟨code, text, v, hk⟩ <;> rw [hk] at hquiet <;>
      exact h.purge hi ⟨rfl, hm⟩ (hquiet (by simp) (by simp))
  | _ => exact hsame (by simp) (by simp) rfl

end served

/-- Runs of a fixed voter set in which no database is lost: every voter is held to its pledges,
and a prepare on the network has a ballot that was handed out. -/
structure Held (vs : List Voter) (s : State σ ε) : Prop extends Inv vs s where
  lost : s.lost = []
  bare : ∀ w ∈ ids vs, Bare s.log w (s.acc w)
  prepared : ∀ w m reg b, (w, m) ∈ s.sent → m.req = .prepare reg b → Issued s b

theorem Held.intact (h : Held vs s) (hw : w ∈ ids vs) : Intact s.log w (s.acc w) :=
  (h.acceptor w hw).resolve_right (by simp [h.lost])

theorem outbox_prepare (hok : CallOk s i c) (hm : (w, m) ∈ c.outbox)
    (hr : m.req = .prepare reg b) : Issued s b := by
  unfold CallOk at hok
  unfold Call.outbox at hm
  split at hm
  · rename_i v b' pending r hp
    rw [hp] at hok
    obtain ⟨⟨id, st⟩, -, he⟩ := List.mem_map.1 hm
    simp only [Prod.mk.injEq] at he
    obtain ⟨rfl, rfl⟩ := he
    have hb : b' = b := by
      cases st <;> cases r <;> simp [Call.msg, Call.req] at hr <;> exact hr.2
    exact hb ▸ hok.2.1
  · simp at hm

theorem Held.bare_deliver (h : Held vs s) (hm : (w, m) ∈ s.sent) {now : ℤ} {u : NodeID}
    (hu : u ∈ ids vs) : Bare (s.deliver w m now).log u ((s.deliver w m now).acc u) := by
  have hsent := h.sent w m hm
  rcases hh : (s.acc w).handle now m with ⟨a', ans⟩
  have hs := Acceptor.handle_served hh
  simp only [State.deliver, hh]
  by_cases huw : u = w
  · subst huw
    rw [Function.update_self]
    refine (h.bare u hu).served (h.intact hu) hs (fun v hr => ?_) fun rows hr => ?_
    · rw [SentOk, hr] at hsent
      rw [h.self u]
      exact isVoter_of_mem (h.voters v hsent) hu
    · simp [SentOk, hr] at hsent
  · rw [Function.update_of_ne huw]
    refine (h.bare u hu).cons fun reg hnone => ⟨hnone, ?_⟩
    rintro b (⟨row, hn, -⟩ | ⟨x, hn, -⟩) <;> exact huw hn.symm

/-- A step keeps what the voters hold, as long as no database is lost. -/
theorem Held.step (h : Held vs s) (hs : Stepped s act s') (hk : Kept act) : Held vs s' := by
  have hinv := inv_step h.toInv hs (honest_of_lost h.lost act)
  have hgrow : ∀ b, Issued s b → Issued s' b := by
    rintro b ⟨hne, hle⟩
    refine ⟨hne, hle.trans ?_⟩
    cases hs with
    | @attempt i c v b' hc hp hv hn hcount hl =>
      simp only [State.update]
      by_cases hu : b.proposer = c.node
      · rw [hu, Function.update_self]
        exact hcount.le
      · rw [Function.update_of_ne hu]
    | _ => exact le_rfl
  have hput : ∀ {i c}, s'.calls i = some c → ∀ {w m reg b}, (w, m) ∈ c.outbox →
      m.req = .prepare reg b → Issued s' b := fun hc _ _ _ _ hm hr =>
    outbox_prepare (hinv.call _ _ hc) hm hr
  refine ⟨hinv, lost_next h.lost hs hk, fun w hw => ?_, fun w m reg b hm hr => ?_⟩
  · cases hs with
    | deliver hm => exact h.bare_deliver hm hw
    | wipe => cases hk
    | _ => exact h.bare w hw
  · have hold : (w, m) ∈ s.sent → Issued s' b := fun hm => hgrow b (h.prepared w m reg b hm hr)
    cases hs with
    | turn ht =>
      rcases List.mem_append.1 hm with hm | hm
      · exact hput (Function.update_self ..) hm hr
      · exact hold hm
    | attempt hc =>
      rcases List.mem_append.1 hm with hm | hm
      · exact hput (Function.update_self ..) hm hr
      · exact hold hm
    | ask hv hq =>
      rcases List.mem_cons.1 hm with hm | hm
      · cases hm
        rcases hq with hq | ⟨reg', hq⟩ | ⟨pre, after, limit, hq⟩ <;> simp [hq] at hr
      · exact hold hm
    | purge =>
      rcases List.mem_append.1 hm with hm | hm
      · obtain ⟨id, -, he⟩ := List.mem_map.1 hm
        cases he
        cases hr
      · exact hold hm
    | deliver => exact hold hm
    | wipe => exact hold hm

theorem Held.init (h : Initial s) (hf : Fixed vs s) : Held vs s :=
  ⟨.init h hf, h.lost, fun w _ reg _ b ⟨e, he, _⟩ => by simp [h.log] at he, by simp [h.sent]⟩

theorem Held.run (h : Held vs s) (hk : ∀ a ∈ bs, Kept a) (hr : run Dstore.step s bs = some s') :
    Held vs s' :=
  invariant_along (fun _ _ _ h hk hs => h.step (step_stepped hs) hk) bs h (along_of_forall s hk) hr

theorem log_step (hs : Stepped s act s') : s'.log = s.log ∨
    ∃ w m now, act = .deliver w m now ∧ (w, m) ∈ s.sent ∧
      s'.log = ⟨w, m, ((s.acc w).handle now m).2⟩ :: s.log := by
  cases hs with
  | deliver hm => exact .inr ⟨_, _, _, rfl, hm, rfl⟩
  | _ => exact .inl rfl

/-- An answer was given by an acceptor that held what had been answered before. -/
theorem answered : ∀ {bs : List (Action σ ε)} {s : State σ ε} {new : List Event},
    Held vs s → (∀ a ∈ bs, Kept a) → run step s bs = some s' → s'.log = new ++ s.log → e ∈ new →
    ∃ (t : State σ ε) (a' : Acceptor), Held vs t ∧ (∀ e ∈ s.log, e ∈ t.log) ∧
      (∀ e ∈ t.log, e ∈ s'.log) ∧ (t.acc e.node).Served e.msg a' e.ans.reply
  | [], s, new, _, _, hr, hlog, he => by
    obtain rfl := Option.some.inj hr
    rw [List.self_eq_append_left.1 hlog] at he
    simp at he
  | act :: bs, s, new, h, hk, hr, hlog, he => by
    obtain ⟨t, hs, hr⟩ := run_cons.1 hr
    have hs := step_stepped hs
    have ht := h.step hs (hk act (by simp))
    have hkt : ∀ a ∈ bs, Kept a := fun a ha => hk a (by simp [ha])
    rcases log_step hs with hsame | ⟨w, m, now, -, -, hcons⟩
    · rw [← hsame] at hlog ⊢
      exact answered ht hkt hr hlog he
    · have hsplit := log_run hr
      rw [hcons] at hsplit
      have hnew : new = since t s' ++ [⟨w, m, ((s.acc w).handle now m).2⟩] := by
        rw [hlog] at hsplit
        exact List.append_cancel_right (hsplit.trans (by simp))
      rw [hnew] at he
      rcases List.mem_append.1 he with he | he
      · obtain ⟨u, a', hu, h1, h2, h3⟩ := answered ht hkt hr (log_run hr) he
        exact ⟨u, a', hu, fun e he => h1 e (hcons ▸ List.mem_cons_of_mem _ he), h2, h3⟩
      · rw [List.mem_singleton.1 he]
        exact ⟨s, _, h, fun _ h => h, fun _ h => hlog ▸ List.mem_append_right _ h,
          Acceptor.dispatch_served (s.acc w) now m⟩

section since

variable (h : Held vs s) (hk : ∀ a ∈ bs, Kept a) (hr : run step s bs = some s')
  (he : e ∈ since s s')
include h hk hr he

/-- A promise is above all the voter has pledged before. -/
theorem promise_above (hw : w ∈ ids vs) (hp : e.IsPromise w reg b' row)
    (hb : Pledged s.log w reg b) : b < b' := by
  obtain ⟨t, a', ht, hold, -, hs⟩ := answered h hk hr (log_run hr) he
  obtain ⟨hn, hreq, hrep⟩ := hp
  subst hn
  have hle := (ht.intact hw).pledged_le (hb.mono hold)
  rw [hrep] at hs
  generalize hrow : Reply.promise row.accepted row.value row.hasValue = r at hs
  cases hs with
  | @promised reg' p hm _ _ hlt =>
    have := hreq.symm.trans hm
    simp only [Req.prepare.injEq] at this
    obtain ⟨rfl, rfl⟩ := this
    exact hle.trans_lt hlt
  | @scanned pre after limit _ _ hf =>
    rw [Acceptor.scan_eq pre after limit hf] at hrow
    cases hrow
  | @purged reg' p hm => exact absurd (hreq.symm.trans hm) (by simp)
  | _ => cases hrow

/-- What an acceptor that answered since `s` shows of the history. -/
structure Seen (s s' : State σ ε) (w : NodeID) (a : Acceptor) : Prop where
  voted : ∀ reg, (a.row reg).accepted ≠ ⊥ →
    Voted s'.log w reg (a.row reg).accepted ((a.row reg).value, (a.row reg).hasValue)
  pledged : ∀ reg b, Pledged s.log w reg b → b ≤ a.promisedOn reg
  erased : ∀ reg b, a.rows.get reg = none → Pledged s.log w reg b → Erased s'.log w reg b

/-- A scan shows the rows of one moment. -/
theorem scan_seen {pre after next : Bytes} {limit : ℤ} {rows : List ScanRow} {more : Bool}
    (hw : e.node ∈ ids vs) (hreq : e.msg.req = .scan pre after limit)
    (hrep : e.ans.reply = .scanReply rows more next) :
    ∃ a : Acceptor, Seen s s' e.node a ∧ ⟨rows, more, next⟩ = pageOf pre after limit a := by
  obtain ⟨t, a', ht, hold, hnew, hs⟩ := answered h hk hr (log_run hr) he
  have hi := ht.intact hw
  refine ⟨t.acc e.node, ⟨fun reg hne => ((hi.row reg).vote hne).mono hnew,
    fun reg b hb => hi.pledged_le (hb.mono hold),
    fun reg b hnone hb => (ht.bare _ hw reg hnone b (hb.mono hold)).mono hnew⟩, ?_⟩
  rw [hrep] at hs
  generalize hrow : Reply.scanReply rows more next = r at hs
  cases hs with
  | @scanned pre' after' limit' hm _ hf =>
    have := hreq.symm.trans hm
    simp only [Req.scan.injEq] at this
    obtain ⟨rfl, rfl, rfl⟩ := this
    rw [Acceptor.scan_eq pre after limit hf] at hrow
    simp only [Reply.scanReply.injEq] at hrow
    simp [pageOf, hrow]
  | @purged reg' p hm => exact absurd (hreq.symm.trans hm) (by simp)
  | _ => cases hrow

end since

theorem call_of_proposal (h : c.proposal i = some q) : q.call = i := by
  unfold Call.proposal at h
  split at h
  · cases h
    rfl
  · cases h

/-- Call `i` has no ballot in `t` that was handed out by `s`. -/
structure FreshCall (s t : State σ ε) (i : ℕ) : Prop where
  counter : ∀ w, s.counter w ≤ t.counter w
  proposals : ∀ q ∈ t.proposals, q.call = i → ¬ Issued s q.ballot
  current : ∀ c b, t.calls i = some c → c.current = some b → ¬ Issued s b

section fresh

variable {t t' : State σ ε} {j : ℕ}

theorem FreshCall.update (h : FreshCall s t i)
    (hc : j = i → ∀ b, c.current = some b → ¬ Issued s b) : FreshCall s (t.update j c) i := by
  refine ⟨h.counter, fun q hq hi => ?_, fun d b hd hb => ?_⟩
  · rcases List.mem_append.1 hq with hq | hq
    · have hq := Option.mem_toList.1 hq
      exact hc ((call_of_proposal hq).symm.trans hi) _ (current_of_proposal hq)
    · exact h.proposals q hq hi
  · by_cases hj : i = j
    · subst hj
      simp only [State.update, Function.update_self, Option.some.injEq] at hd
      exact hc rfl b (hd ▸ hb)
    · simp only [State.update, Function.update_of_ne hj] at hd
      exact h.current d b hd hb

/-- A call that began after `s` stays one. -/
theorem FreshCall.step (h : FreshCall s t i) (hinv : RoundInv t) (hs : Stepped t act t') :
    FreshCall s t' i := by
  cases hs with
  | turn ht =>
    refine h.update ?_
    rintro rfl b hb
    rcases (ht.ok hinv).2 with ⟨-, hp⟩ | ⟨d, hd, hf⟩
    · simp [Call.current, hp] at hb
    · exact h.current d b hd (hf.current hb)
  | @attempt j c v b hc hp hv hn hlt hl =>
    have hup : ∀ w, s.counter w ≤ Function.update t.counter c.node b.counter w := fun w => by
      by_cases hw : w = c.node
      · rw [hw, Function.update_self]
        exact (h.counter c.node).trans hlt.le
      · rw [Function.update_of_ne hw]
        exact h.counter w
    refine FreshCall.update ⟨hup, h.proposals, h.current⟩ fun _ b' hb' => ?_
    simp only [Call.current, Call.broadcast, Option.some.injEq] at hb'
    subst hb'
    exact fun hb => absurd (hb.2.trans (hn ▸ h.counter c.node)) (not_le.2 hlt)
  | _ => exact ⟨h.counter, h.proposals, h.current⟩

variable (h : RoundInv s) (hr : run step s bs = some s')
include h hr

theorem calls_eq_none {node : NodeID} {fn : ChangeFunc σ ε} {notAfter : ℤ} {env : σ}
    (hm : .propose i node reg fn notAfter env ∈ bs) : s.calls i = none := by
  obtain ⟨pre, post, rfl⟩ := List.append_of_mem hm
  obtain ⟨t, ht, hr⟩ := run_append.1 hr
  obtain ⟨u, hu, -⟩ := run_cons.1 hr
  rcases hc : s.calls i with _ | c
  · rfl
  · have hcall : RoundInv t ∧ ∃ c, t.calls i = some c := by
      refine invariant (P := fun t => RoundInv t ∧ ∃ c, t.calls i = some c)
        (fun t a t' ht hs => ?_) pre ⟨h, c, hc⟩ ht
      obtain ⟨ht, c, hc⟩ := ht
      obtain ⟨c', hc', -⟩ := ht.same (step_stepped hs) hc
      exact ⟨ht.step (step_stepped hs), c', hc'⟩
    obtain ⟨c', hc'⟩ := hcall.2
    simp [Dstore.step, hc'] at hu

theorem not_issued (hn : s.calls i = none) (hq : q ∈ s'.proposals) (hi : q.call = i) :
    ¬ Issued s q.ballot := by
  have hstart : FreshCall s s i := by
    refine ⟨fun _ => le_rfl, fun q hq hi => ?_, by simp [hn]⟩
    obtain ⟨c, hc, -⟩ := (h.proposal q hq).origin
    simp [hi, hn] at hc
  have hend := invariant (P := fun t => RoundInv t ∧ FreshCall s t i) (fun t a t' ht hs =>
    ⟨ht.1.step (step_stepped hs), ht.2.step ht.1 (step_stepped hs)⟩) bs ⟨h, hstart⟩ hr
  exact hend.2.proposals q hq hi

end fresh

theorem proposal_above (h : Held vs s) (hk : ∀ a ∈ bs, Kept a) (hr : run step s bs = some s')
    (hn : s.calls i = none) (hq : q ∈ s'.proposals) (hi : q.call = i) {Q : Finset NodeID}
    (hQ : Majority.IsQuorum (ids vs) Q) (hb : ∀ w ∈ Q, Pledged s.log w q.reg b) :
    b < q.ballot := by
  have h' := h.run hk hr
  have hok := h'.proposal q hq
  obtain ⟨P, hP, hall, -⟩ := hok.quorum
  rw [h'.voterIDs hok.view] at hP
  obtain ⟨w, hwP, hwQ⟩ := hP.exists_mem hQ
  obtain ⟨row, hrow, -⟩ := hall w hwP
  rw [PromisedTo, log_run hr] at hrow
  rcases List.mem_append.1 hrow with hrow | hrow
  · exact promise_above h hk hr hrow (hQ.subset w hwQ) ⟨rfl, rfl, rfl⟩ (hb w hwQ)
  · exact absurd (h.prepared _ _ _ _ (h.log _ hrow) rfl)
      (not_issued h.toRoundInv hr hn hq hi)

end Dstore

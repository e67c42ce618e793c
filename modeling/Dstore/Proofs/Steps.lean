import Dstore.Proofs.Calls

/-!
# The steps of the system

`Stepped` lists what `step` may do. `RoundInv` is what every such step keeps about calls, ballots
and messages, whatever the acceptors do.
-/

namespace Dstore

variable {σ ε : Type} {s s' : State σ ε} {a : Action σ ε} {i j : ℕ} {c c' : Call σ ε} {v : View}
  {b : Ballot} {q q' : Proposal} {w : NodeID} {m : Msg}

/-- What each step of a call does, with what it found. -/
inductive Turn (s : State σ ε) : Action σ ε → ℕ → Call σ ε → Prop
  | propose {i : ℕ} (node : NodeID) (reg : Bytes) (fn : ChangeFunc σ ε) (notAfter : ℤ) (env : σ)
      (h : s.calls i = none) : Turn s (.propose i node reg fn notAfter env) i
        { node := node, reg := reg, fn := fn, notAfter := notAfter, env := env }
  | stop {i : ℕ} {c : Call σ ε} {e : ProposeErr ε} (h : s.calls i = some c)
      (he : stoppable e c.phase = true) :
      Turn s (.stop i e) i { c with phase := .done {} (some e) }
  | hear {i : ℕ} {c : Call σ ε} {v : View} {b : Ballot} {pending : List (NodeID × Stage)}
      {r : Round ε} {w : NodeID} {st : Stage} {ans : Answer} (h : s.calls i = some c)
      (hp : c.phase = .round v b pending r) (hmem : (w, st) ∈ pending)
      (hlog : ⟨w, c.msg v b r st, ans⟩ ∈ s.log) :
      Turn s (.hear i w st ans) i (c.hear v b pending r w st ans)
  | fail {i : ℕ} {c : Call σ ε} {v : View} {b : Ballot} {pending : List (NodeID × Stage)}
      {r : Round ε} {w : NodeID} {st : Stage} (h : s.calls i = some c)
      (hp : c.phase = .round v b pending r) (hmem : (w, st) ∈ pending) :
      Turn s (.fail i w st) i (c.reply v b (pending.erase (w, st)) none r)
  | close {i : ℕ} {c : Call σ ε} {v : View} {b : Ballot} {r : Round ε} (h : s.calls i = some c)
      (hp : c.phase = .round v b [] r) : Turn s (.close i) i (c.close v b r)
  | wake {i : ℕ} {c : Call σ ε} (h : s.calls i = some c) (hp : c.phase = .waiting) :
      Turn s (.wake i) i { c with phase := .ready }

/-- A message that leaves the rows alone. -/
def IsQuery (v : View) (m : Msg) : Prop :=
  m.req = .install v ∨ (∃ reg, m.req = .read reg) ∨ ∃ pre after limit, m.req = .scan pre after limit

/-- What each step of the system does, with what it found. -/
inductive Stepped (s : State σ ε) : Action σ ε → State σ ε → Prop
  | turn {a : Action σ ε} {i : ℕ} {c : Call σ ε} (h : Turn s a i c) : Stepped s a (s.update i c)
  | attempt {i : ℕ} {c : Call σ ε} {v : View} {b : Ballot} (h : s.calls i = some c)
      (hp : c.phase = .ready) (hv : v ∈ s.views) (hn : b.proposer = c.node)
      (hc : s.counter c.node < b.counter) (hl : c.last < b) :
      Stepped s (.attempt i v b) ({ s with
        counter := Function.update s.counter c.node b.counter }.update i
          (c.broadcast v b (.prepare {})))
  | ask {a : Action σ ε} {w : NodeID} {v : View} {m : Msg} (hv : v ∈ s.views)
      (hm : IsQuery v m) : Stepped s a (s.send w m)
  | purge {v cur pv : View} {reg : Bytes} {b : Ballot} {replies : List (NodeID × Answer)}
      (hv : v ∈ s.views) (hcur : cur ∈ s.views) (hpv : pv ∈ s.views)
      (hnd : (replies.map Prod.fst).Nodup)
      (hlog : ∀ p ∈ replies, p.1 ∈ v.voterIDs ∧
        ⟨p.1, ⟨v.incarnation, v.epoch, .read reg⟩, p.2⟩ ∈ s.log)
      (hb : purgeable cur b (readAll v replies) = true) :
      Stepped s (.tryPurge v cur pv reg b replies) { s with
        sent := (pv.voterIDs.map fun id => (id, ⟨pv.incarnation, pv.epoch, .purge reg b⟩)) ++
          s.sent }
  | deliver {w : NodeID} {m : Msg} {now : ℤ} (h : (w, m) ∈ s.sent) :
      Stepped s (.deliver w m now) (s.deliver w m now)
  | wipe {w : NodeID} : Stepped s (.wipe w)
      { s with acc := Function.update s.acc w { self := w }, lost := w :: s.lost }

/-- A step is one of those listed. -/
theorem step_stepped (h : step s a = some s') : Stepped s a s' := by
  cases a with
  | propose i node reg fn notAfter env =>
    simp only [step] at h
    split at h
    · cases h
    · cases h
      exact .turn (.propose node reg fn notAfter env ‹_›)
  | attempt i v b =>
    simp only [step] at h
    split at h <;> try cases h
    split at h <;> try cases h
    split_ifs at h with hc
    cases h
    exact .attempt ‹_› ‹_› hc.1 hc.2.1 hc.2.2.1 hc.2.2.2
  | stop i e =>
    simp only [step] at h
    split at h <;> try cases h
    split_ifs at h with hc
    cases h
    exact .turn (.stop ‹_› hc)
  | hear i w st ans =>
    simp only [step] at h
    split at h <;> try cases h
    split at h <;> try cases h
    split_ifs at h with hc
    cases h
    exact .turn (.hear ‹_› ‹_› hc.1 hc.2)
  | fail i w st =>
    simp only [step] at h
    split at h <;> try cases h
    split at h <;> try cases h
    split_ifs at h with hc
    cases h
    exact .turn (.fail ‹_› ‹_› hc)
  | close i =>
    simp only [step] at h
    split at h <;> try cases h
    split at h <;> try cases h
    exact .turn (.close ‹_› ‹_›)
  | wake i =>
    simp only [step] at h
    split at h <;> try cases h
    split at h <;> try cases h
    exact .turn (.wake ‹_› ‹_›)
  | install w v =>
    simp only [step] at h
    split_ifs at h with hv
    cases h
    exact .ask hv (.inl rfl)
  | read w v reg =>
    simp only [step] at h
    split_ifs at h with hv
    cases h
    exact .ask hv (.inr (.inl ⟨reg, rfl⟩))
  | scan w v pre after limit =>
    simp only [step] at h
    split_ifs at h with hv
    cases h
    exact .ask hv (.inr (.inr ⟨pre, after, limit, rfl⟩))
  | tryPurge v cur pv reg b replies =>
    simp only [step] at h
    split_ifs at h with hc
    cases h
    exact .purge hc.1 hc.2.1 hc.2.2.1 hc.2.2.2.1 hc.2.2.2.2.1 hc.2.2.2.2.2
  | deliver w m now =>
    simp only [step] at h
    split_ifs at h with hc
    cases h
    exact .deliver hc
  | wipe w =>
    cases h
    exact .wipe

/-- The ballot of the round a call is in. -/
def Call.current (c : Call σ ε) : Option Ballot :=
  match c.phase with
  | .round _ b _ _ => some b
  | _ => none

theorem current_of_proposal (h : c.proposal i = some q) : c.current = some q.ballot := by
  unfold Call.proposal at h
  split at h
  · rename_i v b pending cur goal l hp
    cases h
    simp [Call.current, hp]
  · cases h

theorem current_cases (i : ℕ) (h : c.current = some b) :
    (∃ v pending l, c.phase = .round v b pending (.prepare l)) ∨
      ∃ q, c.proposal i = some q ∧ q.ballot = b := by
  unfold Call.current at h
  split at h
  · rename_i v b' pending r hp
    cases h
    cases r with
    | prepare l => exact .inl ⟨v, pending, l, hp⟩
    | accept cur goal l => exact .inr ⟨_, by rw [Call.proposal, hp], rfl⟩
  · cases h

theorem Follows.current (h : Follows i c c') (hb : c'.current = some b) : c.current = some b := by
  rcases current_cases i hb with ⟨v, pending, l, hp⟩ | ⟨q, hq, rfl⟩
  · obtain ⟨pending', l', hp'⟩ := h.prepare v b pending l hp
    simp [Call.current, hp']
  · rcases h.accept q hq with hq' | ⟨v, pending, l, hp⟩
    · exact current_of_proposal hq'
    · simp [Call.current, hp]

/-- The call's change function has made the proposal. -/
def Originates (q : Proposal) (c : Call σ ε) : Prop :=
  c.reg = q.reg ∧ ∃ env env' goal, c.fn env q.cur q.ballot = (env', Goal.outcome goal) ∧
    goal.value q.cur = (q.value, q.hasValue) ∧ goal.isChange = q.isChange

/-- What is behind a proposal. -/
structure ProposalOk (s : State σ ε) (q : Proposal) : Prop where
  view : q.view ∈ s.views
  issued : Issued s q.ballot
  quorum : PromiseQuorum s.log q.view q.reg q.ballot q.cur
  origin : ∃ c, s.calls q.call = some c ∧ Originates q c

/-- What is behind a message. -/
def SentOk (s : State σ ε) (w : NodeID) (m : Msg) : Prop :=
  match m.req with
  | .accept reg b value hasValue _ => ∃ q ∈ s.proposals, q.reg = reg ∧ q.ballot = b ∧
      q.value = value ∧ q.hasValue = hasValue ∧ m.incarnation = q.view.incarnation ∧
      m.epoch = q.view.epoch ∧ w ∈ q.view.voterIDs
  | .install v => v ∈ s.views
  | .marker _ => False
  | .seed _ => False
  | _ => True

/-- What rounds keep, whoever the voters are. -/
structure RoundInv (s : State σ ε) : Prop where
  nodup : ∀ v ∈ s.views, v.voterIDs.Nodup
  call : ∀ i c, s.calls i = some c → CallOk s i c
  proposal : ∀ q ∈ s.proposals, ProposalOk s q
  unique : ∀ q ∈ s.proposals, ∀ q' ∈ s.proposals, q.ballot = q'.ballot → q = q'
  fresh : ∀ i c v b pending l, s.calls i = some c → c.phase = .round v b pending (.prepare l) →
    ∀ q ∈ s.proposals, q.ballot ≠ b
  mine : ∀ i c q, s.calls i = some c → c.proposal i = some q → q ∈ s.proposals
  distinct : ∀ i j c d b, s.calls i = some c → s.calls j = some d → c.current = some b →
    d.current = some b → i = j
  sent : ∀ w m, (w, m) ∈ s.sent → SentOk s w m
  log : ∀ e ∈ s.log, (e.node, e.msg) ∈ s.sent

theorem SentOk.mono (h : SentOk s w m) (hg : Grows s s') : SentOk s' w m := by
  unfold SentOk at h ⊢
  split at h
  · exact h.imp fun q hq => ⟨hg.proposals q hq.1, hq.2⟩
  · exact hg.views _ h
  · exact h
  · exact h
  · trivial

theorem ProposalOk.mono (h : ProposalOk s q) (hg : Grows s s')
    (hc : ∀ c, s.calls q.call = some c → ∃ c', s'.calls q.call = some c' ∧ c.Same c') :
    ProposalOk s' q := by
  refine ⟨hg.views _ h.view, h.issued.mono hg, h.quorum.mono hg.log, ?_⟩
  obtain ⟨c, hcall, hreg, env, env', goal, hfn, hval, hch⟩ := h.origin
  obtain ⟨c', hc', hsame⟩ := hc c hcall
  exact ⟨c', hc', hsame.reg.trans hreg, env, env', goal, hsame.fn ▸ hfn, hval, hch⟩

theorem Same.refl (c : Call σ ε) : c.Same c := ⟨rfl, rfl, rfl⟩

/-- A step outside the calls. -/
theorem RoundInv.of_grows (h : RoundInv s) (hviews : s'.views = s.views)
    (hcalls : s'.calls = s.calls) (hprop : s'.proposals = s.proposals)
    (hcount : s'.counter = s.counter) (hlog : ∀ e ∈ s.log, e ∈ s'.log)
    (hsent : ∀ w m, (w, m) ∈ s'.sent → (w, m) ∈ s.sent ∨ SentOk s' w m)
    (hin : ∀ e ∈ s'.log, (e.node, e.msg) ∈ s'.sent) : RoundInv s' := by
  have hg : Grows s s' := ⟨fun v hv => hviews ▸ hv, hlog, fun q hq => hprop ▸ hq,
    fun w => by rw [hcount]⟩
  refine ⟨fun v hv => h.nodup v (hviews ▸ hv), fun i c hc => ?_, fun q hq => ?_, ?_, ?_, ?_, ?_,
    fun w m hm => ?_, hin⟩
  · exact (h.call i c (hcalls ▸ hc)).mono hg
  · exact (h.proposal q (hprop ▸ hq)).mono hg fun c hc => ⟨c, hcalls ▸ hc, Same.refl c⟩
  · rw [hprop]
    exact h.unique
  · rw [hprop, hcalls]
    exact h.fresh
  · rw [hprop, hcalls]
    exact h.mine
  · rw [hcalls]
    exact h.distinct
  · rcases hsent w m hm with hm | hm
    · exact (h.sent w m hm).mono hg
    · exact hm

theorem outbox_ok (hok : CallOk s i c) (hm : (w, m) ∈ c.outbox) : SentOk (s.update i c) w m := by
  unfold CallOk at hok
  unfold Call.outbox at hm
  split at hm
  · rename_i v b pending r hp
    rw [hp] at hok
    obtain ⟨hview, -, -, -, hsub, -⟩ := hok
    obtain ⟨⟨id, st⟩, hmem, he⟩ := List.mem_map.1 hm
    simp only [Prod.mk.injEq] at he
    obtain ⟨rfl, rfl⟩ := he
    have hreq : SentOk (s.update i c) id ⟨v.incarnation, v.epoch, c.req b r⟩ := by
      cases r with
      | prepare l => trivial
      | accept cur goal l =>
        have hq : c.proposal i = some ⟨i, v, c.reg, b, cur, (goal.value cur).1,
            (goal.value cur).2, goal.isChange⟩ := by rw [Call.proposal, hp]
        exact ⟨_, mem_update_proposals hq, rfl, rfl, rfl, rfl, rfl, rfl, hsub _ hmem⟩
    cases st with
    | installing => exact hview
    | first => exact hreq
    | second => exact hreq
  · simp at hm

theorem proposalOk_of_call (hok : CallOk s i c) (hq : c.proposal i = some q) :
    ProposalOk (s.update i c) q := by
  unfold CallOk at hok
  unfold Call.proposal at hq
  split at hq
  · rename_i v b pending cur goal l hp
    cases hq
    rw [hp] at hok
    obtain ⟨hview, hiss, -, -, -, hprom, ⟨env, hfn⟩, -⟩ := hok
    exact ⟨hview, hiss, hprom, c, by simp [State.update], rfl, env, c.env, goal, hfn, rfl, rfl⟩
  · cases hq

/-- A call that moves on. -/
theorem RoundInv.update (h : RoundInv s) (hok : CallOk s i c')
    (hsame : ∀ c, s.calls i = some c → c.Same c')
    (hprop : ∀ q, c'.proposal i = some q → ∀ q' ∈ s.proposals, q'.ballot = q.ballot → q' = q)
    (hfresh : ∀ v b pending l, c'.phase = .round v b pending (.prepare l) →
      ∀ q ∈ s.proposals, q.ballot ≠ b)
    (hdist : ∀ j d b, j ≠ i → s.calls j = some d → c'.current = some b → d.current ≠ some b) :
    RoundInv (s.update i c') := by
  have hg := grows_update s i c'
  have hcalls : ∀ j d, (s.update i c').calls j = some d → j = i ∧ d = c' ∨
      j ≠ i ∧ s.calls j = some d := by
    intro j d hd
    by_cases hj : j = i
    · subst hj
      simp only [State.update, Function.update_self, Option.some.injEq] at hd
      exact .inl ⟨rfl, hd.symm⟩
    · simp only [State.update, Function.update_of_ne hj] at hd
      exact .inr ⟨hj, hd⟩
  have hprops : ∀ q, q ∈ (s.update i c').proposals → c'.proposal i = some q ∨ q ∈ s.proposals := by
    intro q hq
    simpa [State.update] using hq
  refine ⟨h.nodup, fun j d hd => ?_, fun q hq => ?_, fun q hq q' hq' he => ?_,
    fun j d v b pending l hd hp q hq => ?_, fun j d q hd hq => ?_,
    fun j k d d' b hd hd' hb hb' => ?_, fun w m hm => ?_,
    fun e he => List.mem_append_right _ (h.log e he)⟩
  · rcases hcalls j d hd with ⟨rfl, rfl⟩ | ⟨-, hd⟩
    · exact hok.mono hg
    · exact (h.call j d hd).mono hg
  · rcases hprops q hq with hq | hq
    · exact proposalOk_of_call hok hq
    · refine (h.proposal q hq).mono hg fun c hc => ?_
      by_cases hj : q.call = i
      · exact ⟨c', by simp [State.update, hj], hsame c (hj ▸ hc)⟩
      · exact ⟨c, by simpa [State.update, Function.update_of_ne hj] using hc, Same.refl c⟩
  · rcases hprops q hq with hq | hq <;> rcases hprops q' hq' with hq' | hq'
    · exact Option.some.inj (hq.symm.trans hq')
    · exact (hprop q hq q' hq' he.symm).symm
    · exact hprop q' hq' q hq he
    · exact h.unique q hq q' hq' he
  · rcases hcalls j d hd with ⟨rfl, rfl⟩ | ⟨hj, hd⟩ <;> rcases hprops q hq with hq | hq
    · simp [Call.proposal, hp] at hq
    · exact hfresh v b pending l hp q hq
    · exact fun he => hdist j d b hj hd (he ▸ current_of_proposal hq) (by simp [Call.current, hp])
    · exact h.fresh j d v b pending l hd hp q hq
  · rcases hcalls j d hd with ⟨rfl, rfl⟩ | ⟨-, hd⟩
    · exact mem_update_proposals hq
    · exact hg.proposals q (h.mine j d q hd hq)
  · rcases hcalls j d hd with ⟨rfl, rfl⟩ | ⟨hj, hold⟩ <;>
      rcases hcalls k d' hd' with ⟨rfl, rfl⟩ | ⟨hk, hold'⟩
    · rfl
    · exact absurd hb' (hdist k d' b hk hold' hb)
    · exact absurd hb (hdist j d b hj hold hb')
    · exact h.distinct j k d d' b hold hold' hb hb'
  · rcases List.mem_append.1 hm with hm | hm
    · exact outbox_ok hok hm
    · exact (h.sent w m hm).mono hg

theorem RoundInv.follow (h : RoundInv s) (hc : s.calls i = some c) (hok : CallOk s i c')
    (hf : Follows i c c') : RoundInv (s.update i c') := by
  refine h.update hok (fun d hd => ?_) (fun q hq q' hq' he => ?_) (fun v b pending l hp => ?_)
    fun j d b hj hd hb hb' => ?_
  · exact Option.some.inj (hc.symm.trans hd) ▸ hf.toSame
  · rcases hf.accept q hq with hq0 | ⟨v, pending, l, hp⟩
    · exact h.unique q' hq' q (h.mine i c q hc hq0) he
    · exact absurd he (h.fresh i c v q.ballot pending l hc hp q' hq')
  · obtain ⟨pending', l', hp'⟩ := hf.prepare v b pending l hp
    exact h.fresh i c v b pending' l' hc hp'
  · exact hj (h.distinct j i d c b hd hc hb' (hf.current hb))

/-- What a turn makes of a call. -/
theorem Turn.ok (h : RoundInv s) (ht : Turn s a i c') :
    CallOk s i c' ∧ (s.calls i = none ∧ c'.phase = .ready ∨
      ∃ c, s.calls i = some c ∧ Follows i c c') := by
  cases ht with
  | propose node reg fn notAfter env hn => exact ⟨callOk_of_idle (.inl rfl), .inl ⟨hn, rfl⟩⟩
  | @stop _ c e hc he =>
    refine ⟨(DoneOk.failed e ?_ ?_).callOk, .inr ⟨c, hc, follows_of_done⟩⟩
    · rintro err rfl
      unfold stoppable at he
      split at he <;> simp at he
    · rintro n k rfl
      unfold stoppable at he
      split at he <;> simp at he
  | @hear _ c v b pending r w st ans hc hp hmem hlog =>
    obtain ⟨h1, h2⟩ := hear_ok hp h.nodup (h.call i c hc) (fun q => h.mine i c q hc) hmem hlog
    exact ⟨h1, .inr ⟨c, hc, h2⟩⟩
  | @fail _ c v b pending r w st hc hp hmem =>
    obtain ⟨h1, h2⟩ := reply_ok (o := none) hp h.nodup (h.call i c hc) (fun q => h.mine i c q hc)
      hmem (by simp)
    exact ⟨h1, .inr ⟨c, hc, h2⟩⟩
  | @close _ c v b r hc hp =>
    obtain ⟨h1, h2⟩ := close_ok hp h.nodup (h.call i c hc) (fun q => h.mine i c q hc)
    exact ⟨h1, .inr ⟨c, hc, h2⟩⟩
  | @wake _ c hc hp =>
    exact ⟨callOk_of_idle (.inl rfl), .inr ⟨c, hc, follows_of_idle ⟨rfl, rfl, rfl⟩ (by simp)⟩⟩

theorem RoundInv.turn (h : RoundInv s) (ht : Turn s a i c') : RoundInv (s.update i c') := by
  obtain ⟨hok, ⟨hn, hp⟩ | ⟨c, hc, hf⟩⟩ := ht.ok h
  · refine h.update hok (by simp [hn]) (fun q hq => ?_) (by simp [hp]) fun j d b _ _ hb => ?_
    · simp [Call.proposal, hp] at hq
    · simp [Call.current, hp] at hb
  · exact h.follow hc hok hf

theorem RoundInv.current_issued (h : RoundInv s) (hc : s.calls i = some c)
    (hb : c.current = some b) : Issued s b := by
  have hok := h.call i c hc
  unfold CallOk at hok
  unfold Call.current at hb
  split at hb
  · rename_i v b' pending r hp
    cases hb
    rw [hp] at hok
    exact hok.2.1
  · cases hb

/-- A new round has a ballot of its own. -/
theorem RoundInv.attempt (h : RoundInv s) (hc : s.calls i = some c) (hv : v ∈ s.views)
    (hn : b.proposer = c.node) (hcount : s.counter c.node < b.counter) (hl : c.last < b) :
    RoundInv ({ s with counter := Function.update s.counter c.node b.counter }.update i
      (c.broadcast v b (.prepare {}))) := by
  have hup : ∀ u, s.counter u ≤ Function.update s.counter c.node b.counter u := fun u => by
    by_cases hu : u = c.node
    · subst hu
      simpa using hcount.le
    · simp [Function.update_of_ne hu]
  have hold : ∀ b', Issued s b' → b' ≠ b := by
    rintro b' hb' rfl
    have := hb'.2
    rw [hn] at this
    omega
  have hg : Grows s { s with counter := Function.update s.counter c.node b.counter } :=
    ⟨fun _ h => h, fun _ h => h, fun _ h => h, hup⟩
  have h1 : RoundInv { s with counter := Function.update s.counter c.node b.counter } :=
    ⟨h.nodup, fun j d hd => (h.call j d hd).mono hg,
      fun q hq => (h.proposal q hq).mono hg fun d hd => ⟨d, hd, Same.refl d⟩, h.unique, h.fresh,
      h.mine, h.distinct, fun w m hm => (h.sent w m hm).mono hg, h.log⟩
  refine h1.update ?_ (fun d hd => ?_) (by simp [Call.proposal, Call.broadcast]) ?_ ?_
  · refine broadcast_ok ⟨hv, ⟨(bot_le.trans_lt hl).ne', ?_⟩, hn, h.nodup v hv⟩
      (prepareTally_init _ _ _ _ _)
    simp [hn]
  · obtain rfl := Option.some.inj (hc.symm.trans hd)
    exact ⟨rfl, rfl, rfl⟩
  · intro v' b' pending l hp q hq
    simp only [Call.broadcast, Phase.round.injEq] at hp
    exact hp.2.1 ▸ hold _ (h.proposal q hq).issued
  · intro j d b' hj hd hb hb'
    simp only [Call.current, Call.broadcast, Option.some.injEq] at hb
    exact hold b' (h.current_issued hd hb') hb.symm

/-- Every step keeps the rounds in order. -/
theorem RoundInv.step (h : RoundInv s) (hs : Stepped s a s') : RoundInv s' := by
  cases hs with
  | turn ht => exact h.turn ht
  | attempt hc hp hv hn hcount hl => exact h.attempt hc hv hn hcount hl
  | @ask _ w v m hv hm =>
    refine h.of_grows rfl rfl rfl rfl (fun _ h => h) (fun w' m' hm' => ?_)
      fun e he => List.mem_cons_of_mem _ (h.log e he)
    rcases List.mem_cons.1 hm' with hm' | hm'
    · simp only [Prod.mk.injEq] at hm'
      obtain ⟨rfl, rfl⟩ := hm'
      right
      rcases hm with hm | ⟨reg, hm⟩ | ⟨pre, after, limit, hm⟩ <;> simp only [SentOk, hm]
      exact hv
    · exact .inl hm'
  | @purge v cur pv reg b replies hv hcur hpv hnd hlog hb =>
    refine h.of_grows rfl rfl rfl rfl (fun _ h => h) (fun w' m' hm' => ?_)
      fun e he => List.mem_append_right _ (h.log e he)
    rcases List.mem_append.1 hm' with hm' | hm'
    · obtain ⟨id, -, he⟩ := List.mem_map.1 hm'
      simp only [Prod.mk.injEq] at he
      obtain ⟨rfl, rfl⟩ := he
      exact .inr trivial
    · exact .inl hm'
  | deliver hm =>
    refine h.of_grows rfl rfl rfl rfl (fun e he => List.mem_cons_of_mem _ he)
      (fun w' m' hm' => .inl hm') fun e he => ?_
    rcases List.mem_cons.1 he with rfl | he
    · exact hm
    · exact h.log e he
  | wipe => exact h.of_grows rfl rfl rfl rfl (fun _ h => h) (fun _ _ h => .inl h) h.log

theorem RoundInv.init (h : Initial s) (hnd : ∀ v ∈ s.views, v.voterIDs.Nodup) : RoundInv s := by
  refine ⟨hnd, ?_, ?_, ?_, ?_, ?_, ?_, ?_, ?_⟩ <;>
    simp [h.calls, h.proposals, h.sent, h.log]

end Dstore

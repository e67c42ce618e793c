import Dstore.Proofs.Rounds

/-!
# What a call knows

`CallOk` says, for each phase of a `Propose`, what it rests on. Every turn of a call keeps it.
-/

namespace Dstore

variable {σ ε : Type} {s s' : State σ ε} {i : ℕ} {c c' : Call σ ε} {v : View} {b : Ballot}
  {pending : List (NodeID × Stage)} {r : Round ε} {w : NodeID} {st : Stage} {ans : Answer}
  {cur : Row} {goal : Goal ε} {q : Proposal}

/-- The ballot was taken from its proposer's counter. -/
def Issued (s : State σ ε) (b : Ballot) : Prop := b ≠ ⊥ ∧ b.counter ≤ s.counter b.proposer

/-- What the change function said. -/
def Goal.outcome : Goal ε → Except ε (Bytes × Bool)
  | .change value hasValue => .ok (value, hasValue)
  | .reaccept err => .error err

/-- The change function, run on `cur`, has set this goal. -/
def Call.Computed (c : Call σ ε) (cur : Row) (b : Ballot) (goal : Goal ε) : Prop :=
  ∃ env, c.fn env cur b = (c.env, goal.outcome)

/-- The replies that a round has counted were given. -/
def RoundOk (s : State σ ε) (c : Call σ ε) (v : View) (b : Ballot) (ids : List NodeID) :
    Round ε → Prop
  | .prepare l => PrepareTally s.log v c.reg b ids l
  | .accept cur goal l => PromiseQuorum s.log v c.reg b cur ∧ c.Computed cur b goal ∧
      AcceptTally s.log v c.reg b (goal.value cur) ids l

/-- What a finished call may report, and what is behind it. -/
inductive DoneOk (s : State σ ε) (i : ℕ) (c : Call σ ε) : Result → Option (ProposeErr ε) → Prop
  | success (q : Proposal) (hq : q ∈ s.proposals) (hi : q.call = i) (hc : q.isChange = true)
      (hf : c.Computed q.cur q.ballot (.change q.value q.hasValue))
      (hv : VoteQuorum s.log q.view q.reg q.ballot (q.value, q.hasValue)) :
      DoneOk s i c ⟨q.ballot, q.value, q.hasValue⟩ none
  | unknown (q : Proposal) (hq : q ∈ s.proposals) (hi : q.call = i) (hc : q.isChange = true)
      (hf : c.Computed q.cur q.ballot (.change q.value q.hasValue)) (n k : ℕ) :
      DoneOk s i c ⟨q.ballot, q.value, q.hasValue⟩ (some (.round (.unknown n k)))
  | absent (v : View) (cur : Row) (b : Ballot) (err : ε) (hz : cur.accepted = ⊥)
      (hn : cur.hasValue = false) (hp : PromiseQuorum s.log v c.reg b cur)
      (hf : c.Computed cur b (.reaccept err)) : DoneOk s i c {} (some (.fn err))
  | mismatch (q : Proposal) (hq : q ∈ s.proposals) (hi : q.call = i) (hc : q.isChange = false)
      (err : ε) (hf : c.Computed q.cur q.ballot (.reaccept err))
      (hv : (∀ n k, c.aerr ≠ some (.unknown n k)) →
        VoteQuorum s.log q.view q.reg q.ballot (q.cur.value, q.cur.hasValue)) :
      DoneOk s i c ⟨q.cur.accepted, q.cur.value, q.cur.hasValue⟩ (some (.fn err))
  | failed (e : ProposeErr ε) (hfn : ∀ err, e ≠ .fn err)
      (hu : ∀ n k, e ≠ .round (.unknown n k)) : DoneOk s i c {} (some e)

/-- What is known of a call from the phase it is in. -/
def PhaseOk (s : State σ ε) (i : ℕ) (c : Call σ ε) : Phase ε → Prop
  | .ready => True
  | .waiting => True
  | .round v b pending r => v ∈ s.views ∧ Issued s b ∧ b.proposer = c.node ∧
      (pending.map Prod.fst).Nodup ∧ (∀ p ∈ pending, p.1 ∈ v.voterIDs) ∧
      RoundOk s c v b (pending.map Prod.fst) r
  | .done res err => DoneOk s i c res err

/-- What is known of a call. -/
def CallOk (s : State σ ε) (i : ℕ) (c : Call σ ε) : Prop := PhaseOk s i c c.phase

/-- What a call never changes. -/
structure Call.Same (c c' : Call σ ε) : Prop where
  node : c'.node = c.node
  reg : c'.reg = c.reg
  fn : c'.fn = c.fn

/-- A turn of the call: it stays in its round, leaves it, or goes from a prepare round to the
accept round at the same ballot. -/
structure Follows (i : ℕ) (c c' : Call σ ε) : Prop extends Call.Same c c' where
  prepare : ∀ v b pending l, c'.phase = .round v b pending (.prepare l) →
    ∃ pending' l', c.phase = .round v b pending' (.prepare l')
  accept : ∀ q, c'.proposal i = some q → c.proposal i = some q ∨
    ∃ v pending l, c.phase = .round v q.ballot pending (.prepare l)

/-- What a step only adds to. -/
structure Grows (s s' : State σ ε) : Prop where
  views : ∀ v ∈ s.views, v ∈ s'.views
  log : ∀ e ∈ s.log, e ∈ s'.log
  proposals : ∀ q ∈ s.proposals, q ∈ s'.proposals
  counter : ∀ w, s.counter w ≤ s'.counter w

variable {res : Result} {err : Option (ProposeErr ε)}

theorem Issued.mono (h : Issued s b) (hg : Grows s s') : Issued s' b :=
  ⟨h.1, h.2.trans (hg.counter _)⟩

theorem RoundOk.mono {ids : List NodeID} (h : RoundOk s c v b ids r) (hg : Grows s s') :
    RoundOk s' c v b ids r := by
  cases r with
  | prepare l => exact PrepareTally.mono h hg.log fun _ h => h
  | accept cur goal l => exact ⟨h.1.mono hg.log, h.2.1, h.2.2.mono hg.log fun _ h => h⟩

theorem DoneOk.mono (h : DoneOk s i c res err) (hg : Grows s s') : DoneOk s' i c res err := by
  cases h with
  | success q hq hi hc hf hv => exact .success q (hg.proposals q hq) hi hc hf (hv.mono hg.log)
  | unknown q hq hi hc hf n k => exact .unknown q (hg.proposals q hq) hi hc hf n k
  | absent v cur b err hz hn hp hf => exact .absent v cur b err hz hn (hp.mono hg.log) hf
  | mismatch q hq hi hc err hf hv =>
    exact .mismatch q (hg.proposals q hq) hi hc err hf fun hn => (hv hn).mono hg.log
  | failed e hfn hu => exact .failed e hfn hu

theorem CallOk.mono (h : CallOk s i c) (hg : Grows s s') : CallOk s' i c := by
  unfold CallOk at h ⊢
  cases hp : c.phase with
  | ready => trivial
  | waiting => trivial
  | round v b pending r =>
    rw [hp] at h
    obtain ⟨h1, h2, h3, h4, h5, h6⟩ := h
    exact ⟨hg.views v h1, h2.mono hg, h3, h4, h5, h6.mono hg⟩
  | done res err =>
    rw [hp] at h
    exact DoneOk.mono h hg

theorem grows_update (s : State σ ε) (i : ℕ) (c : Call σ ε) : Grows s (s.update i c) :=
  ⟨fun _ h => h, fun _ h => h, fun _ h => List.mem_append_right _ h, fun _ => le_rfl⟩

theorem mem_update_proposals (h : c.proposal i = some q) : q ∈ (s.update i c).proposals := by
  simp [State.update, h]

theorem callOk_of_idle (h : c.phase = .ready ∨ c.phase = .waiting) : CallOk s i c := by
  unfold CallOk
  rcases h with h | h <;> rw [h] <;> trivial

theorem follows_of_idle (hs : c.Same c') (h : ∀ v b pending r, c'.phase ≠ .round v b pending r) :
    Follows i c c' := by
  refine ⟨hs, fun v b pending l hp => absurd hp (h _ _ _ _), fun q hq => ?_⟩
  unfold Call.proposal at hq
  split at hq
  · exact absurd ‹_› (h _ _ _ _)
  · cases hq

theorem follows_of_done {env : σ} :
    Follows i c { c with env := env, phase := .done res err } :=
  follows_of_idle ⟨rfl, rfl, rfl⟩ (by simp)

theorem handleRoundError_ok {e : RoundErr} (he : ∀ n k, e ≠ .unknown n k) :
    CallOk s i (c.handleRoundError e) ∧ Follows i c (c.handleRoundError e) := by
  cases e with
  | stale nv =>
    exact ⟨callOk_of_idle (.inl rfl),
      follows_of_idle ⟨rfl, rfl, rfl⟩ (by simp [Call.handleRoundError])⟩
  | conflict b =>
    exact ⟨callOk_of_idle (.inr rfl),
      follows_of_idle ⟨rfl, rfl, rfl⟩ (by simp [Call.handleRoundError])⟩
  | expired => exact ⟨.failed _ (by simp) (by simp), follows_of_done⟩
  | unknown n k => exact absurd rfl (he n k)
  | unavailable f => exact ⟨.failed _ (by simp) (by simp), follows_of_done⟩

/-- What a round is entitled to begin from. -/
structure Frame (s : State σ ε) (c : Call σ ε) (v : View) (b : Ballot) : Prop where
  view : v ∈ s.views
  issued : Issued s b
  node : b.proposer = c.node
  nodup : v.voterIDs.Nodup

theorem broadcast_ok (hf : Frame s c v b)
    (hr : RoundOk s c v b v.voterIDs r) : CallOk s i (c.broadcast v b r) := by
  have hids : (v.voterIDs.map fun id => (id, Stage.first)).map Prod.fst = v.voterIDs := by
    simp [Function.comp_def]
  refine ⟨hf.view, hf.issued, hf.node, by rw [hids]; exact hf.nodup, fun p hp => ?_, ?_⟩
  · obtain ⟨id, hid, rfl⟩ := List.mem_map.1 hp
    exact hid
  · rw [hids]
    cases r <;> exact hr

theorem prepared_eq_broadcast {env : σ} (goal : Goal ε)
    (hfn : c.fn c.env cur b = (env, goal.outcome))
    (hz : goal.isChange = true ∨ ¬ (cur.accepted.isZero ∧ !cur.hasValue)) :
    c.prepared v b (.ok cur) = { c with env := env }.broadcast v b (.accept cur goal {}) := by
  cases goal with
  | change value hasValue => simp [Call.prepared, hfn, Goal.outcome]
  | reaccept err =>
    have hz' := hz.resolve_left (by simp [Goal.isChange])
    simp only [Call.prepared, hfn, Goal.outcome, if_neg hz']

/-- The end of a prepare round. -/
theorem prepared_ok {l : PrepareLoop} {o : Except RoundErr Row}
    (hp : c.phase = .round v b pending (.prepare l)) (hf : Frame s c v b)
    (he : ∀ e, o = .error e → ∀ n k, e ≠ .unknown n k)
    (hq : ∀ cur, o = .ok cur → PromiseQuorum s.log v c.reg b cur) :
    CallOk s i (c.prepared v b o) ∧ Follows i c (c.prepared v b o) := by
  rcases o with e | cur
  · exact handleRoundError_ok (he e rfl)
  have hacc : ∀ env goal, c.fn c.env cur b = (env, goal.outcome) →
      CallOk s i ({ c with env := env }.broadcast v b (.accept cur goal {})) ∧
        Follows i c ({ c with env := env }.broadcast v b (.accept cur goal {})) := by
    intro env goal hfn
    refine ⟨broadcast_ok ⟨hf.view, hf.issued, hf.node, hf.nodup⟩ ⟨hq cur rfl, ⟨c.env, hfn⟩,
      acceptTally_init _ _ _ _ _ _⟩, ⟨rfl, rfl, rfl⟩, by simp [Call.broadcast], fun q hq => ?_⟩
    simp only [Call.proposal, Call.broadcast, Option.some.injEq] at hq
    exact .inr ⟨v, pending, l, by rw [hp, ← hq]⟩
  rcases hfn : c.fn c.env cur b with ⟨env, err | ⟨value, hasValue⟩⟩
  · by_cases hz : cur.accepted.isZero ∧ !cur.hasValue
    · have hc : c.prepared v b (.ok cur) =
          { c with env := env, phase := .done {} (some (.fn err)) } := by
        simp only [Call.prepared, hfn, if_pos hz]
      rw [hc]
      exact ⟨.absent v cur b err (by simpa using hz.1) (by simpa using hz.2) (hq cur rfl)
        ⟨c.env, hfn⟩, follows_of_done⟩
    · rw [prepared_eq_broadcast (.reaccept err) hfn (.inr hz)]
      exact hacc env (.reaccept err) hfn
  · rw [prepared_eq_broadcast (.change value hasValue) hfn (.inl rfl)]
    exact hacc env (.change value hasValue) hfn

theorem DoneOk.callOk (h : DoneOk s i c res err) :
    CallOk s i { c with phase := .done res err } := by
  change DoneOk s i _ res err
  cases h with
  | success q hq hi hc hf hv => exact .success q hq hi hc hf hv
  | unknown q hq hi hc hf n k =>
    refine .unknown q hq hi hc ?_ n k
    exact hf
  | absent v cur b err hz hn hp hf => exact .absent v cur b err hz hn hp hf
  | mismatch q hq hi hc err hf hv => exact .mismatch q hq hi hc err hf hv
  | failed e hfn hu => exact .failed e hfn hu

/-- The end of an accept round. -/
theorem accepted_ok {l : AcceptLoop} {o : Except RoundErr Unit}
    (hp : c.phase = .round v b pending (.accept cur goal l)) (hcomp : c.Computed cur b goal)
    (hv : o = .ok () → VoteQuorum s.log v c.reg b (goal.value cur))
    (hmine : ∀ q, c.proposal i = some q → q ∈ s.proposals) :
    CallOk s i (c.accepted b cur goal o) ∧ Follows i c (c.accepted b cur goal o) := by
  have hq := hmine ⟨i, v, c.reg, b, cur, (goal.value cur).1, (goal.value cur).2, goal.isChange⟩
    (by simp [Call.proposal, hp])
  cases goal with
  | change value hasValue =>
    rcases o with e | ⟨⟩
    · by_cases he : ∀ n k, e ≠ .unknown n k
      · have hc : c.accepted b cur (.change value hasValue) (.error e) = c.handleRoundError e := by
          cases e <;> first | rfl | exact absurd rfl (he _ _)
        rw [hc]
        exact handleRoundError_ok he
      · push Not at he
        obtain ⟨n, k, rfl⟩ := he
        exact ⟨(DoneOk.unknown _ hq rfl rfl hcomp n k).callOk, follows_of_done⟩
    · exact ⟨(DoneOk.success _ hq rfl rfl hcomp (hv rfl)).callOk, follows_of_done⟩
  | reaccept err =>
    rcases o with e | ⟨⟩
    · by_cases he : ∀ n k, e ≠ .unknown n k
      · have hc : c.accepted b cur (.reaccept err) (.error e) =
            { c with aerr := some e }.handleRoundError e := by
          cases e <;> first | rfl | exact absurd rfl (he _ _)
        rw [hc]
        obtain ⟨h1, h2⟩ := handleRoundError_ok (s := s) (i := i) (c := { c with aerr := some e }) he
        exact ⟨h1, ⟨⟨h2.node, h2.reg, h2.fn⟩, h2.prepare, h2.accept⟩⟩
      · push Not at he
        obtain ⟨n, k, rfl⟩ := he
        have hd : DoneOk s i { c with aerr := some (.unknown n k) }
            ⟨cur.accepted, cur.value, cur.hasValue⟩ (some (.fn err)) :=
          .mismatch _ hq rfl rfl err hcomp fun hn => absurd rfl (hn n k)
        exact ⟨hd.callOk, follows_of_idle ⟨rfl, rfl, rfl⟩ (by simp [Call.accepted])⟩
    · have hd : DoneOk s i { c with aerr := none } ⟨cur.accepted, cur.value, cur.hasValue⟩
          (some (.fn err)) := .mismatch _ hq rfl rfl err hcomp fun _ => hv rfl
      exact ⟨hd.callOk, follows_of_idle ⟨rfl, rfl, rfl⟩ (by simp [Call.accepted])⟩

section turns

variable (hp : c.phase = .round v b pending r) (hnd : ∀ v ∈ s.views, v.voterIDs.Nodup)
  (hok : CallOk s i c) (hmine : ∀ q, c.proposal i = some q → q ∈ s.proposals)
include hp hnd hok hmine

/-- One reply in either round. -/
theorem reply_ok (hmem : (w, st) ∈ pending) {o : Option Answer}
    (hlog : ∀ ans, o = some ans →
      ⟨w, ⟨v.incarnation, v.epoch, c.req b r⟩, ans⟩ ∈ s.log) :
    CallOk s i (c.reply v b (pending.erase (w, st)) o r) ∧
      Follows i c (c.reply v b (pending.erase (w, st)) o r) := by
  unfold CallOk at hok
  rw [hp] at hok
  obtain ⟨hview, hiss, hnode, hnodup, hsub, hr⟩ := hok
  have hids : w ∈ pending.map Prod.fst := List.mem_map_of_mem hmem
  have hperm : (pending.map Prod.fst).Perm (w :: (pending.erase (w, st)).map Prod.fst) := by
    simpa using (List.perm_cons_erase hmem).map Prod.fst
  have hnodup' := List.nodup_cons.1 (hperm.nodup_iff.1 hnodup)
  have hrest : ∀ u ∈ (pending.erase (w, st)).map Prod.fst, u ∈ pending.map Prod.fst := fun u hu =>
    hperm.mem_iff.2 (List.mem_cons_of_mem _ hu)
  have hsub' : ∀ p ∈ pending.erase (w, st), p.1 ∈ v.voterIDs := fun p hp =>
    hsub p (List.mem_of_mem_erase hp)
  cases r with
  | prepare l =>
    obtain ⟨hnext, hret⟩ := PrepareTally.reply (hsub _ hmem) hids hnodup'.1 hrest hr hlog
    rcases ho : l.reply v o with l' | o' <;> simp only [Call.reply, ho]
    · refine ⟨⟨hview, hiss, hnode, hnodup'.2, hsub', hnext l' ho⟩, ⟨rfl, rfl, rfl⟩, ?_, ?_⟩
      · rintro v' b' pending' l'' h'
        simp only [Phase.round.injEq] at h'
        obtain ⟨rfl, rfl, -⟩ := h'
        exact ⟨pending, l, hp⟩
      · intro q hq
        simp [Call.proposal] at hq
    · refine prepared_ok hp ⟨hview, hiss, hnode, hnd v hview⟩ (fun e he => ?_)
        fun cur hcur => hret cur (hcur ▸ ho)
      rcases l.reply_cases v o with ⟨e', he', hu⟩ | ⟨l', he', -⟩ | ⟨row, -, he'⟩
      · rw [ho, he] at he'
        simp only [Loop.ret.injEq, Except.error.injEq] at he'
        exact he' ▸ hu
      · simp [ho] at he'
      · rw [ho, he] at he'
        simp only at he'
        split_ifs at he' <;> cases he'
  | accept cur goal l =>
    obtain ⟨hprom, hcomp, htally⟩ := hr
    obtain ⟨hnext, hret⟩ := AcceptTally.reply (hsub _ hmem) hids hnodup'.1 hrest htally hlog
    rcases ho : l.reply v o with l' | o' <;> simp only [Call.reply, ho]
    · refine ⟨⟨hview, hiss, hnode, hnodup'.2, hsub', hprom, hcomp, hnext l' ho⟩, ⟨rfl, rfl, rfl⟩,
        by simp, fun q hq => .inl ?_⟩
      simpa [Call.proposal, hp] using hq
    · exact accepted_ok hp hcomp (fun h => hret (h ▸ ho)) hmine

omit hnd hmine in
theorem restage_ok (hmem : (w, st) ∈ pending) (st' : Stage) :
    CallOk s i { c with phase := .round v b ((w, st') :: pending.erase (w, st)) r } ∧
      Follows i c { c with phase := .round v b ((w, st') :: pending.erase (w, st)) r } := by
  unfold CallOk at hok
  rw [hp] at hok
  obtain ⟨hview, hiss, hnode, hnodup, hsub, hr⟩ := hok
  have hperm : (pending.map Prod.fst).Perm (w :: (pending.erase (w, st)).map Prod.fst) := by
    simpa using (List.perm_cons_erase hmem).map Prod.fst
  refine ⟨⟨hview, hiss, hnode, hperm.nodup_iff.1 hnodup, fun p hp => ?_, ?_⟩, ⟨rfl, rfl, rfl⟩,
    fun v' b' pending' l h' => ?_, fun q hq => .inl ?_⟩
  · rcases List.mem_cons.1 hp with rfl | hp
    · exact hsub (w, st) hmem
    · exact hsub p (List.mem_of_mem_erase hp)
  · cases r with
    | prepare l => exact PrepareTally.mono hr (fun _ h => h) fun u hu => hperm.mem_iff.2 hu
    | accept cur goal l =>
      exact ⟨hr.1, hr.2.1, hr.2.2.mono (fun _ h => h) fun u hu => hperm.mem_iff.2 hu⟩
  · simp only [Phase.round.injEq] at h'
    obtain ⟨rfl, rfl, -, rfl⟩ := h'
    exact ⟨pending, l, hp⟩
  · cases r with
    | prepare l => simp [Call.proposal] at hq
    | accept cur goal l => simpa [Call.proposal, hp] using hq

/-- A reply, or the install that it asks for. -/
theorem hear_ok (hmem : (w, st) ∈ pending) (hlog : ⟨w, c.msg v b r st, ans⟩ ∈ s.log) :
    CallOk s i (c.hear v b pending r w st ans) ∧ Follows i c (c.hear v b pending r w st ans) := by
  have hreply : c.msg v b r st = ⟨v.incarnation, v.epoch, c.req b r⟩ →
      CallOk s i (c.reply v b (pending.erase (w, st)) (some ans) r) ∧
        Follows i c (c.reply v b (pending.erase (w, st)) (some ans) r) := by
    intro hreq
    refine reply_ok hp hnd hok hmine hmem fun ans' h' => ?_
    cases h'
    exact hreq ▸ hlog
  cases st with
  | first =>
    cases hn : Call.needView ans with
    | true => simpa only [Call.hear, hn] using restage_ok hp hok hmem .installing
    | false => simpa only [Call.hear, hn] using hreply rfl
  | installing => exact restage_ok hp hok hmem .second
  | second => exact hreply rfl

/-- A round without a majority. -/
theorem close_ok : CallOk s i (c.close v b r) ∧ Follows i c (c.close v b r) := by
  unfold CallOk at hok
  rw [hp] at hok
  obtain ⟨hview, hiss, hnode, -, -, hr⟩ := hok
  cases r with
  | prepare l =>
    refine prepared_ok (o := l.close) hp ⟨hview, hiss, hnode, hnd v hview⟩ (fun e he => ?_)
      fun cur hcur => ?_
    · simp only [PrepareLoop.close, Except.error.injEq] at he
      simp [← he]
    · simp [PrepareLoop.close] at hcur
  | accept cur goal l =>
    refine accepted_ok (o := l.close v) hp hr.2.1 (fun h => ?_) hmine
    unfold AcceptLoop.close at h
    split_ifs at h

end turns

end Dstore

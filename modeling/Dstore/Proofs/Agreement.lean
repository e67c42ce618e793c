import Dstore.Proofs.Voters
import Dstore.Lib.Chain

/-!
# Agreement

The law of the catalog, over every run of a fixed voter set: a ballot accepted by a majority is at
or below the row that any proposal above it was computed on. So no ballot carries two values and the
chosen ballots of a register lie on one chain.
-/

namespace Dstore

open Machine

variable {σ ε : Type} {s s₀ s' : State σ ε} {as : List (Action σ ε)} {act : Action σ ε}
  {vs : List Voter} {v : View} {w : NodeID} {m : Msg} {reg : Bytes} {b b' : Ballot}
  {x x' : Bytes × Bool} {cur : Row} {q : Proposal} {i : ℕ} {c : Call σ ε} {res : Result}

/-- What every reachable state keeps under fixed voters. -/
structure Inv (vs : List Voter) (s : State σ ε) : Prop extends RoundInv s, VoterInv vs s

theorem Inv.init (h : Initial s) (hf : Fixed vs s) : Inv vs s :=
  ⟨.init h fun v hv => by rw [View.voterIDs, hf.voters v hv]; exact hf.nodup, .init h hf⟩

theorem inv_step (h : Inv vs s) (hs : Stepped s act s') (hb : Honest s act) : Inv vs s' :=
  ⟨h.toRoundInv.step hs, h.toVoterInv.step h.toRoundInv hs hb⟩

theorem inv_run (h₀ : Initial s₀) (hf : Fixed vs s₀) (hb : Along step Honest s₀ as)
    (hr : run step s₀ as = some s) : Inv vs s :=
  invariant_along (fun _ _ _ h hb hs => inv_step h (step_stepped hs) hb) as (.init h₀ hf) hb hr

theorem voted_of_votedFor (h : VotedFor s.log v reg b x w) : Voted s.log w reg b x := by
  obtain ⟨n, hn⟩ := h
  exact ⟨_, hn, rfl, ⟨n, rfl⟩, rfl⟩

theorem promised_of_promisedTo {row : Row} (h : PromisedTo s.log v reg b w row) :
    Promised s.log w reg b row :=
  ⟨_, h, rfl, rfl, rfl⟩

theorem VoteQuorum.chosen (hq : VoteQuorum s.log v reg b x) (hv : v.voters = vs) :
    Chosen vs s reg b x := by
  obtain ⟨Q, hQ, hall⟩ := hq
  rw [View.voterIDs, hv] at hQ
  exact ⟨Q, hQ, fun w hw => voted_of_votedFor (hall w hw)⟩

theorem Stepped.views (hs : Stepped s act s') : s'.views = s.views := by
  cases hs <;> rfl

/-- The invariant of the rounds, over a whole run. -/
theorem roundInv_run (h₀ : Initial s₀) (hf : Fixed vs s₀) (hr : run step s₀ as = some s) :
    RoundInv s ∧ ∀ v ∈ s.views, v.voters = vs := by
  have h0 : RoundInv s₀ := .init h₀ fun v hv => by
    rw [View.voterIDs, hf.voters v hv]
    exact hf.nodup
  refine invariant (P := fun s => RoundInv s ∧ ∀ v ∈ s.views, v.voters = vs)
    (fun s a s' h hs => ?_) as ⟨h0, hf.voters⟩ hr
  have hs := step_stepped hs
  exact ⟨h.1.step hs, hs.views ▸ h.2⟩

/-- A step leaves a call's node, register and function alone. -/
theorem RoundInv.same (h : RoundInv s) (hs : Stepped s act s') (hc : s.calls i = some c) :
    ∃ c', s'.calls i = some c' ∧ c.Same c' := by
  have hput : ∀ (t : State σ ε) j (d : Call σ ε), t.calls = s.calls → (j = i → c.Same d) →
      ∃ c', (t.update j d).calls i = some c' ∧ c.Same c' := by
    intro t j d ht hd
    by_cases hj : i = j
    · exact ⟨d, by simp [State.update, hj], hd hj.symm⟩
    · exact ⟨c, by simpa [State.update, Function.update_of_ne hj, ht] using hc, Same.refl c⟩
  cases hs with
  | turn ht =>
    refine hput s _ _ rfl ?_
    rintro rfl
    rcases (ht.ok h).2 with ⟨hn, -⟩ | ⟨d, hd, hf⟩
    · simp [hn] at hc
    · exact Option.some.inj (hd.symm.trans hc) ▸ hf.toSame
  | attempt hd =>
    refine hput { s with counter := _ } _ _ rfl ?_
    rintro rfl
    obtain rfl := Option.some.inj (hd.symm.trans hc)
    exact ⟨rfl, rfl, rfl⟩
  | _ => exact ⟨c, hc, Same.refl c⟩

/-- A call is still what it was proposed as. -/
theorem RoundInv.proposed (h : RoundInv s₀) (hr : run Dstore.step s₀ as = some s)
    {node : NodeID} {fn : ChangeFunc σ ε} {notAfter : ℤ} {env : σ}
    (hm : .propose i node reg fn notAfter env ∈ as) :
    ∃ c, s.calls i = some c ∧ c.reg = reg ∧ c.fn = fn := by
  obtain ⟨pre, post, rfl⟩ := List.append_of_mem hm
  obtain ⟨s₁, h1, h2⟩ := run_append.1 hr
  obtain ⟨s₂, h2, h3⟩ := run_cons.1 h2
  have hinv : RoundInv s₁ := invariant (fun _ _ _ h hs => h.step (step_stepped hs)) pre h h1
  have hcall : ∃ c, s₂.calls i = some c ∧ c.reg = reg ∧ c.fn = fn := by
    simp only [Dstore.step] at h2
    split at h2
    · cases h2
    · cases h2
      exact ⟨_, by simp [State.update]; rfl, rfl, rfl⟩
  refine (invariant (P := fun s => RoundInv s ∧ ∃ c, s.calls i = some c ∧ c.reg = reg ∧ c.fn = fn)
    (fun s a s' h hs => ?_) post ⟨hinv.step (step_stepped h2), hcall⟩ h3).2
  have hs := step_stepped hs
  obtain ⟨c, hc, hreg, hfn⟩ := h.2
  obtain ⟨c', hc', hsame⟩ := h.1.same hs hc
  exact ⟨h.1.step hs, c', hc', hsame.reg.trans hreg, hsame.fn.trans hfn⟩

theorem proposed_run (h₀ : Initial s₀) (hf : Fixed vs s₀) (hr : run step s₀ as = some s)
    {node : NodeID} {fn : ChangeFunc σ ε} {notAfter : ℤ} {env : σ}
    (hm : .propose i node reg fn notAfter env ∈ as) :
    ∃ c, s.calls i = some c ∧ c.reg = reg ∧ c.fn = fn :=
  (roundInv_run h₀ hf (run_nil s₀)).1.proposed hr hm

theorem RoundInv.reg_eq (h : RoundInv s) (hc : s.calls i = some c) (hq : q ∈ s.proposals)
    (hi : q.call = i) : q.reg = c.reg := by
  obtain ⟨c', hc', horig⟩ := (h.proposal q hq).origin
  obtain rfl := Option.some.inj (hc.symm.trans (hi ▸ hc'))
  exact horig.1.symm

/-- What a successful call has written is chosen. -/
theorem RoundInv.success (h : RoundInv s) (hvs : ∀ v ∈ s.views, v.voters = vs)
    (hc : s.calls i = some c) (hp : c.phase = .done res none) :
    ∃ q ∈ s.proposals, q.call = i ∧ q.isChange = true ∧ q.reg = c.reg ∧
      res = ⟨q.ballot, q.value, q.hasValue⟩ ∧
      c.Computed q.cur q.ballot (.change q.value q.hasValue) ∧
      Chosen vs s q.reg q.ballot (q.value, q.hasValue) := by
  have hok := h.call i c hc
  rw [CallOk, hp] at hok
  rcases hok with ⟨q, hq, hi, hch, hcomp, hv⟩
  exact ⟨q, hq, hi, hch, h.reg_eq hc hq hi, rfl, hcomp, hv.chosen (hvs _ (h.proposal q hq).view)⟩

namespace Inv

variable (h : Inv vs s)
include h

theorem voterIDs (hv : v ∈ s.views) : v.voterIDs = ids vs := by
  rw [View.voterIDs, h.voters v hv, ids]

theorem voted_proposal (hv : Voted s.log w reg b x) :
    ∃ q ∈ s.proposals, q.reg = reg ∧ q.ballot = b ∧ (q.value, q.hasValue) = x := by
  obtain ⟨e, he, -, ⟨n, hm⟩, -⟩ := hv
  have hs := h.sent _ _ (h.log e he)
  rw [SentOk, hm] at hs
  obtain ⟨q, hq, h1, h2, h3, h4, -⟩ := hs
  exact ⟨q, hq, h1, h2, Prod.ext h3 h4⟩

theorem voted_unique {w' : NodeID} (hv : Voted s.log w reg b x) (hv' : Voted s.log w' reg b x') :
    x = x' := by
  obtain ⟨q, hq, -, hb, rfl⟩ := h.voted_proposal hv
  obtain ⟨q', hq', -, hb', rfl⟩ := h.voted_proposal hv'
  rw [h.unique q hq q' hq' (hb.trans hb'.symm)]

theorem voted_ne_bot (hv : Voted s.log w reg b x) : b ≠ ⊥ := by
  obtain ⟨q, hq, -, rfl, -⟩ := h.voted_proposal hv
  exact (h.proposal q hq).issued.1

theorem purged_sent (hp : Purged s.log w reg b) (hne : b ≠ ⊥) :
    (∃ w m, (w, m) ∈ s.sent ∧ m.req = .purge reg b) ∧
      ∀ u ∈ ids vs, ∃ y, Voted s.log u reg b y := by
  obtain ⟨e, he, -, hm⟩ := hp
  exact ⟨⟨_, _, h.log e he, hm⟩, h.purge _ _ reg b (h.log e he) hm hne⟩

/-- What a change is computed on is a row that a voter has accepted. -/
theorem cur_row (hv : v ∈ s.views) (hq : PromiseQuorum s.log v reg b cur) :
    cur.accepted < b ∧ (cur.accepted ≠ ⊥ → ∃ w ∈ ids vs,
      Voted s.log w reg cur.accepted (cur.value, cur.hasValue)) ∧
      (cur.accepted = ⊥ → cur.value = [] ∧ cur.hasValue = false) := by
  obtain ⟨Q, hQ, -, w, hw, hcur⟩ := hq
  have hmem : w ∈ ids vs := h.voterIDs hv ▸ hQ.subset w hw
  obtain ⟨h1, h2, h3⟩ := h.lawful.promise_row hmem (promised_of_promisedTo hcur)
  exact ⟨h1, fun hne => ⟨w, hmem, h2 hne⟩, h3⟩

/-- The law: a proposal above a chosen ballot was computed on a row at or above it, or on no row
where a purge of a ballot between the two came first. -/
theorem law (hc : Chosen vs s reg b x) (hv : v ∈ s.views)
    (hq : PromiseQuorum s.log v reg b' cur) (hlt : b < b') :
    b ≤ cur.accepted ∨ cur.accepted = ⊥ ∧
      ∃ w m d, (w, m) ∈ s.sent ∧ m.req = .purge reg d ∧ b ≤ d ∧ d < b' := by
  obtain ⟨Q, hQ, hvotes⟩ := hc
  obtain ⟨P, hP, hall, u, hu, hcur⟩ := hq
  rw [h.voterIDs hv] at hP
  obtain ⟨w, hwP, hwQ⟩ := hP.exists_mem hQ
  obtain ⟨row, hrow, hle⟩ := hall w hwP
  rcases h.lawful.vote_promise (hQ.subset w hwQ) hlt (hvotes w hwQ) (promised_of_promisedTo hrow)
    with hb | ⟨-, d, y, hd, hdb, hvote, hpurge⟩
  · exact .inl (hb.trans hle)
  obtain ⟨⟨w', m, hsent, hreq⟩, hvoted⟩ := h.purged_sent hpurge (h.voted_ne_bot hvote)
  obtain ⟨y', hy'⟩ := hvoted u (hP.subset u hu)
  rcases h.lawful.vote_promise (hP.subset u hu) hdb hy' (promised_of_promisedTo hcur)
    with hb | ⟨hz, -⟩
  · exact .inl (hd.trans hb)
  · exact .inr ⟨hz, w', m, d, hsent, hreq, hd, hdb⟩

end Inv

/-- No purge is sent. -/
def Unpurged : Action σ ε → Bool
  | .tryPurge _ _ _ _ _ _ => false
  | _ => true

/-- Neither a purge nor the loss of a database. -/
def Quiet : Action σ ε → Bool
  | .wipe _ => false
  | a => Unpurged a

/-- No purge is on the network. -/
def NoPurge (s : State σ ε) : Prop := ∀ w m reg b, (w, m) ∈ s.sent → m.req ≠ .purge reg b

theorem outbox_ne_purge {c : Call σ ε} (h : (w, m) ∈ c.outbox) : m.req ≠ .purge reg b := by
  unfold Call.outbox at h
  split at h
  · rename_i v b' pending r hp
    obtain ⟨⟨id, st⟩, -, he⟩ := List.mem_map.1 h
    simp only [Prod.mk.injEq] at he
    obtain ⟨rfl, rfl⟩ := he
    cases st <;> cases r <;> simp [Call.msg, Call.req]
  · simp at h

theorem IsQuery.ne_purge (h : IsQuery v m) : m.req ≠ .purge reg b := by
  rcases h with h | ⟨reg', h⟩ | ⟨pre, after, limit, h⟩ <;> simp [h]

/-- Without a purge none gets onto the network. -/
theorem NoPurge.next (h : NoPurge s) (hs : Stepped s act s') (hq : Unpurged act) : NoPurge s' := by
  intro w m reg b hm
  cases hs with
  | turn ht =>
    rcases List.mem_append.1 hm with hm | hm
    · exact outbox_ne_purge hm
    · exact h w m reg b hm
  | attempt =>
    rcases List.mem_append.1 hm with hm | hm
    · exact outbox_ne_purge hm
    · exact h w m reg b hm
  | ask hv hm' =>
    rcases List.mem_cons.1 hm with hm | hm
    · cases hm
      exact hm'.ne_purge
    · exact h w m reg b hm
  | purge => cases hq
  | deliver => exact h w m reg b hm
  | wipe => exact h w m reg b hm

/-- No database is lost. -/
def Kept : Action σ ε → Bool
  | .wipe _ => false
  | _ => true

theorem lost_next (hl : s.lost = []) (hs : Stepped s act s') (hk : Kept act) : s'.lost = [] := by
  cases hs with
  | wipe => cases hk
  | _ => exact hl

theorem Quiet.unpurged (h : Quiet act) : Unpurged act := by
  cases act <;> first | exact h | rfl

theorem Quiet.kept (h : Quiet act) : Kept act := by
  cases act <;> first | exact h | rfl

theorem honest_of_lost (hl : s.lost = []) (act : Action σ ε) : Honest s act := by
  cases act <;> try trivial
  intro hw
  simp [hl] at hw

theorem inv_run_kept (h₀ : Initial s₀) (hf : Fixed vs s₀) (hk : ∀ a ∈ as, Kept a)
    (hr : run step s₀ as = some s) : Inv vs s ∧ s.lost = [] := by
  refine invariant_along (P := fun s => Inv vs s ∧ s.lost = []) (fun s a s' h hk hs => ?_) as
    ⟨.init h₀ hf, h₀.lost⟩ (along_of_forall s₀ hk) hr
  have hs := step_stepped hs
  exact ⟨inv_step h.1 hs (honest_of_lost h.2 a), lost_next h.2 hs hk⟩

theorem noPurge_run (h₀ : Initial s₀) (hu : ∀ a ∈ as, Unpurged a)
    (hr : run step s₀ as = some s) : NoPurge s := by
  have hn : NoPurge s₀ := by simp [NoPurge, h₀.sent]
  exact invariant_along (fun _ _ _ h hq hs => h.next (step_stepped hs) hq) as hn
    (along_of_forall s₀ hu) hr

theorem inv_run_quiet (h₀ : Initial s₀) (hf : Fixed vs s₀) (hq : ∀ a ∈ as, Quiet a)
    (hr : run step s₀ as = some s) : Inv vs s ∧ s.lost = [] ∧ NoPurge s := by
  obtain ⟨h, hl⟩ := inv_run_kept h₀ hf (fun a ha => Quiet.kept (hq a ha)) hr
  exact ⟨h, hl, noPurge_run h₀ (fun a ha => Quiet.unpurged (hq a ha)) hr⟩

/-- The value of ballot `b` was computed on the row of ballot `a`. -/
def Parent (s : State σ ε) (reg : Bytes) (b a : Ballot) : Prop :=
  ∃ q ∈ s.proposals, q.reg = reg ∧ q.ballot = b ∧ q.cur.accepted = a

/-- What makes the chosen values of a register one history. -/
structure Agreement (vs : List Voter) (s : State σ ε) : Prop where
  /-- Every accept on the network is that of a recorded proposal. -/
  sent : ∀ w m reg b value hasValue notAfter, (w, m) ∈ s.sent →
    m.req = .accept reg b value hasValue notAfter →
    ∃ q ∈ s.proposals, q.reg = reg ∧ q.ballot = b ∧ q.value = value ∧ q.hasValue = hasValue
  /-- What is proposed above a chosen ballot was computed on a row at or above it. -/
  law : ∀ reg b x, Chosen vs s reg b x →
    ∀ q ∈ s.proposals, q.reg = reg → b < q.ballot → b ≤ q.cur.accepted
  /-- No ballot carries two values. -/
  once : ∀ q ∈ s.proposals, ∀ q' ∈ s.proposals, q.ballot = q'.ballot → q = q'
  /-- A proposal is its change function's answer, or the row re-accepted, on a row that was itself
  proposed at its ballot or on no row. -/
  computed : ∀ q ∈ s.proposals, (∃ c, s.calls q.call = some c ∧ Originates q c) ∧
    (q.cur.accepted ≠ ⊥ → ∃ q' ∈ s.proposals, q'.reg = q.reg ∧ q'.ballot = q.cur.accepted ∧
      q'.value = q.cur.value ∧ q'.hasValue = q.cur.hasValue) ∧
    (q.cur.accepted = ⊥ → q.cur.value = [] ∧ q.cur.hasValue = false)
  /-- Following the rows back from a chosen ballot meets every chosen ballot below it. -/
  chain : ∀ reg b b' x x', Chosen vs s reg b x → Chosen vs s reg b' x' → b ≤ b' →
    Relation.ReflTransGen (Parent s reg) b' b

namespace Inv

variable (h : Inv vs s)
include h

theorem cur_proposal (hq : q ∈ s.proposals) (hne : q.cur.accepted ≠ ⊥) :
    ∃ q' ∈ s.proposals, q'.reg = q.reg ∧ q'.ballot = q.cur.accepted ∧
      q'.value = q.cur.value ∧ q'.hasValue = q.cur.hasValue := by
  have hok := h.proposal q hq
  obtain ⟨w, -, hv⟩ := (h.cur_row hok.view hok.quorum).2.1 hne
  obtain ⟨q', hq', h1, h2, h3⟩ := h.voted_proposal hv
  simp only [Prod.mk.injEq] at h3
  exact ⟨q', hq', h1, h2, h3.1, h3.2⟩

theorem parent_lt {a : Ballot} (hp : Parent s reg b a) : a < b := by
  obtain ⟨q, hq, -, rfl, rfl⟩ := hp
  exact (h.cur_row (h.proposal q hq).view (h.proposal q hq).quorum).1

theorem parent_parent {a : Ballot} (hp : Parent s reg b a) : a = ⊥ ∨ ∃ a', Parent s reg a a' := by
  obtain ⟨q, hq, rfl, rfl, rfl⟩ := hp
  by_cases hz : q.cur.accepted = ⊥
  · exact .inl hz
  · obtain ⟨q', hq', h1, h2, -⟩ := h.cur_proposal hq hz
    exact .inr ⟨q'.cur.accepted, q', hq', h1, h2, rfl⟩

theorem chosen_parent (hc : Chosen vs s reg b x) : ∃ a, Parent s reg b a := by
  obtain ⟨w, -, hv⟩ := hc.voted
  obtain ⟨q, hq, h1, h2, -⟩ := h.voted_proposal hv
  exact ⟨_, q, hq, h1, h2, rfl⟩

/-- Without purges the chosen values of a register are one history. -/
theorem agreement (hu : NoPurge s) : Agreement vs s := by
  have hlaw : ∀ reg b x, Chosen vs s reg b x →
      ∀ q ∈ s.proposals, q.reg = reg → b < q.ballot → b ≤ q.cur.accepted := by
    rintro reg b x hc q hq rfl hlt
    have hok := h.proposal q hq
    rcases h.law hc hok.view hok.quorum hlt with hle | ⟨-, w, m, d, hsent, hreq, -⟩
    · exact hle
    · exact absurd hreq (hu w m _ d hsent)
  refine ⟨fun w m reg b value hasValue notAfter hm hr => ?_, hlaw, h.unique, fun q hq => ?_,
    fun reg b b' x x' hc hc' hle => ?_⟩
  · have hs := h.toRoundInv.sent w m hm
    rw [SentOk, hr] at hs
    obtain ⟨q, hq, h1, h2, h3, h4, -⟩ := hs
    exact ⟨q, hq, h1, h2, h3, h4⟩
  · have hok := h.proposal q hq
    exact ⟨hok.origin, h.cur_proposal hq, (h.cur_row hok.view hok.quorum).2.2⟩
  · have hcov : Chain.Covers (Parent s reg) fun b => ∃ x, Chosen vs s reg b x := by
      rintro b b' a ⟨x, hx⟩ ⟨q, hq, hr, rfl, rfl⟩ hlt
      exact hlaw reg b x hx q hq hr hlt
    obtain ⟨a, ha⟩ := h.chosen_parent hc'
    obtain ⟨w, -, hv⟩ := hc.voted
    exact hcov.reaches (fun _ _ => h.parent_lt) (fun _ _ => h.parent_parent) ⟨x, hc⟩
      (h.voted_ne_bot hv) ha hle

end Inv

/-- What is so of a chosen value, and of everything proposed above it on a row it is so of, is so of
everything proposed above it. -/
theorem Agreement.induction_above {P : Bytes × Bool → Prop} (h : Agreement vs s) (hinv : Inv vs s)
    (hc : Chosen vs s reg b x) (hx : P x) (hP : ∀ q ∈ s.proposals, q.reg = reg → b < q.ballot →
      P (q.cur.value, q.cur.hasValue) → P (q.value, q.hasValue)) :
    ∀ q ∈ s.proposals, q.reg = reg → b ≤ q.ballot → P (q.value, q.hasValue) := by
  obtain ⟨w, -, hv⟩ := hc.voted
  obtain ⟨q₀, hq₀, hreg₀, hb₀, rfl⟩ := hinv.voted_proposal hv
  intro q
  induction hb : q.ballot using WellFoundedLT.induction generalizing q with
  | _ a ih =>
    subst hb
    intro hq hreg hle
    rcases hle.eq_or_lt with heq | hlt
    · rw [h.once q hq q₀ hq₀ (heq.symm.trans hb₀.symm)]
      exact hx
    · have hcur := h.law reg b _ hc q hq hreg hlt
      have hne : q.cur.accepted ≠ ⊥ := fun hz =>
        (hinv.proposal q₀ hq₀).issued.1 (le_bot_iff.1 (hb₀ ▸ hz ▸ hcur))
      obtain ⟨q', hq', hreg', hb', hval, hhas⟩ := hinv.cur_proposal hq hne
      have hbelow : q'.ballot < q.ballot := by
        rw [hb']
        exact (hinv.cur_row (hinv.proposal q hq).view (hinv.proposal q hq).quorum).1
      have hP' := ih q'.ballot hbelow q' rfl hq' (hreg'.trans hreg) (hb' ▸ hcur)
      rw [hval, hhas] at hP'
      exact hP q hq hreg hlt hP'

/-- What is so of no row, and of everything proposed on a row it is so of, is so of everything
proposed. -/
theorem Inv.induction {P : Bytes × Bool → Prop} (h : Inv vs s) (h0 : P ([], false))
    (hP : ∀ q ∈ s.proposals, q.reg = reg → P (q.cur.value, q.cur.hasValue) →
      P (q.value, q.hasValue)) :
    ∀ q ∈ s.proposals, q.reg = reg → P (q.value, q.hasValue) := by
  intro q
  induction hb : q.ballot using WellFoundedLT.induction generalizing q with
  | _ a ih =>
    subst hb
    intro hq hreg
    have hok := h.proposal q hq
    obtain ⟨hlt, -, hz⟩ := h.cur_row hok.view hok.quorum
    refine hP q hq hreg ?_
    by_cases hne : q.cur.accepted = ⊥
    · rw [(hz hne).1, (hz hne).2]
      exact h0
    · obtain ⟨q', hq', hreg', hb', hval, hhas⟩ := h.cur_proposal hq hne
      rw [← hval, ← hhas]
      exact ih q'.ballot (hb' ▸ hlt) q' rfl hq' (hreg'.trans hreg)

/-- Over every quiet run of a fixed voter set, the proposals agree. -/
theorem agreement_of_run (h₀ : Initial s₀) (hf : Fixed vs s₀) (hq : ∀ a ∈ as, Quiet a)
    (hr : run step s₀ as = some s) : Agreement vs s := by
  obtain ⟨h, -, hn⟩ := inv_run_quiet h₀ hf hq hr
  exact h.agreement hn

namespace Trio

def view : View :=
  { incarnation := 1, epoch := 1, version := 1, voters := [⟨1, 1⟩, ⟨2, 1⟩, ⟨3, 1⟩] }

/-- Three acceptors that have the view, and nothing else. -/
def start (σ ε : Type) : State σ ε where
  acc w := { self := w, installed := some view, marker := some 1 }
  views := [view]
  counter _ := 0
  calls _ := none
  sent := []
  log := []
  proposals := []
  lost := []

theorem start_initial (σ ε : Type) : Initial (start σ ε) :=
  ⟨fun _ => rfl, fun _ _ => rfl, fun w v h => by simpa [start, eq_comm] using h, fun _ => rfl,
    rfl, rfl, rfl, rfl⟩

theorem start_fixed (σ ε : Type) : Fixed view.voters (start σ ε) :=
  ⟨fun v h => by rw [List.mem_singleton.1 h], by decide⟩

/-- Call `i` prepares at `b`, and hears these voters promise with these rows. -/
def prepare (i : ℕ) (reg : Bytes) (b : Ballot) (ws : List (NodeID × Row)) :
    List (Action σ ε) :=
  .attempt i view b :: ws.flatMap fun p => [.deliver p.1 ⟨1, 1, .prepare reg b⟩ 0,
    .hear i p.1 .first ⟨1, 1, .promise p.2.accepted p.2.value p.2.hasValue⟩]

/-- These voters accept, and the call hears of it. -/
def accept (i : ℕ) (reg : Bytes) (b : Ballot) (x : Bytes) (ws : List NodeID) :
    List (Action σ ε) :=
  ws.flatMap fun w => [.deliver w ⟨1, 1, .accept reg b x true 0⟩ 0,
    .hear i w .first ⟨1, 1, .accepted⟩]

/-- A change that appends a byte. -/
def append (k : Fin 256) : ChangeFunc Unit Unit := fun _ cur _ =>
  ((), .ok (cur.value ++ [k], true))

/-- The second proposal reaches one voter only, and the third is computed on it. -/
def detour : List (Action Unit Unit) :=
  [.propose 1 1 [7] (append 1) 0 (), .propose 2 2 [7] (append 2) 0 (),
    .propose 3 3 [7] (append 3) 0 ()] ++
  prepare 1 [7] ⟨1, 1⟩ [(1, {}), (2, {})] ++ accept 1 [7] ⟨1, 1⟩ [1] [1, 2] ++
  prepare 2 [7] ⟨2, 2⟩ [(1, ⟨⟨1, 1⟩, [1], true⟩), (2, ⟨⟨1, 1⟩, [1], true⟩)] ++
  accept 2 [7] ⟨2, 2⟩ [1, 2] [1] ++
  prepare 3 [7] ⟨3, 3⟩ [(1, ⟨⟨2, 2⟩, [1, 2], true⟩), (2, ⟨⟨1, 1⟩, [1], true⟩)] ++
  accept 3 [7] ⟨3, 3⟩ [1, 2, 3] [1, 2]

end Trio

theorem agreement_of_run_detour :
    ∃ s, run step (Trio.start Unit Unit) Trio.detour = some s ∧ Agreement Trio.view.voters s := by
  obtain ⟨s, hs⟩ : ∃ s, run step (Trio.start Unit Unit) Trio.detour = some s :=
    Option.isSome_iff_exists.1 (by decide +kernel)
  exact ⟨s, hs, agreement_of_run (Trio.start_initial _ _) (Trio.start_fixed _ _)
    (by decide +kernel) hs⟩

/-- Two chosen ballots with none chosen between them, the later of which was computed on a value
that no majority ever accepted. -/
theorem chosen_on_unchosen : ∃ s ∈ run step (Trio.start Unit Unit) Trio.detour,
    (∀ a ∈ Trio.detour, Quiet a) ∧ Chosen Trio.view.voters s [7] ⟨1, 1⟩ ([1], true) ∧
    Chosen Trio.view.voters s [7] ⟨3, 3⟩ ([1, 2, 3], true) ∧
    (∀ q ∈ s.proposals, Chosen Trio.view.voters s [7] q.ballot (q.value, q.hasValue) →
      q.ballot = ⟨1, 1⟩ ∨ q.ballot = ⟨3, 3⟩) ∧
    ∃ q ∈ s.proposals, q.ballot = ⟨3, 3⟩ ∧ q.cur.accepted = ⟨2, 2⟩ ∧ q.cur.value = [1, 2] := by
  decide +kernel

end Dstore

import Dstore.Lease
import Dstore.Proofs.Once
import Dstore.Proofs.Pledges

/-!
# The lease is exclusive, unless its holder shortens it

Until a chosen lease ends every proposal above it is the holder's, to the same time or later, where
no renewal finds a lease of its node that ends later than the one it writes. One that sampled the
clock earlier and is decided later does.
-/

namespace Dstore

open Machine

section proposals

variable {σ ε : Type} {s s' : State σ ε} {bs : List (Action σ ε)} {act : Action σ ε} {q : Proposal}
  {i : ℕ} {c : Call σ ε} {res : Result} {err : Option (ProposeErr ε)}

theorem Stepped.new_proposal (hs : Stepped s act s') (hq : q ∈ s'.proposals) :
    q ∈ s.proposals ∨ ∃ c, s'.calls q.call = some c ∧ c.proposal q.call = some q := by
  cases hs with
  | @turn _ i c ht =>
    rcases List.mem_append.1 hq with hq | hq
    · have hp : c.proposal i = some q := by simpa using hq
      obtain rfl := call_of_proposal hp
      exact .inr ⟨c, Function.update_self .., hp⟩
    · exact .inl hq
  | attempt => exact .inl (by simpa [State.update, Call.proposal, Call.broadcast] using hq)
  | _ => exact .inl hq

theorem done_proposals (hr : run step s bs = some s') (hc : s.calls i = some c)
    (hp : c.phase = .done res err) : ∀ q ∈ s'.proposals, q.call = i → q ∈ s.proposals := by
  refine (invariant (P := fun t => t.calls i = some c ∧ ∀ q ∈ t.proposals, q.call = i →
    q ∈ s.proposals) (fun t a t' ht hs => ?_) bs ⟨hc, fun _ hq _ => hq⟩ hr).2
  have hs := step_stepped hs
  have hc' := hs.done ht.1 hp
  refine ⟨hc', fun q hq hi => ?_⟩
  rcases hs.new_proposal hq with hq | ⟨d, hd, hdq⟩
  · exact ht.2 q hq hi
  · rw [hi, hc'] at hd
    obtain rfl := Option.some.inj hd
    simp [Call.proposal, hp] at hdq

/-- Every proposal has its call's node as proposer. -/
def Owned (s : State σ ε) : Prop :=
  ∀ q ∈ s.proposals, ∃ c, s.calls q.call = some c ∧ q.ballot.proposer = c.node

theorem Owned.next (h : Owned s) (hinv : RoundInv s) (hs : Stepped s act s') : Owned s' := by
  intro q hq
  rcases hs.new_proposal hq with hq | ⟨c, hc, hcq⟩
  · obtain ⟨c, hc, hn⟩ := h q hq
    obtain ⟨c', hc', hsame⟩ := hinv.same hs hc
    exact ⟨c', hc', hn.trans hsame.node.symm⟩
  · refine ⟨c, hc, ?_⟩
    have hok := (hinv.step hs).call _ c hc
    unfold CallOk at hok
    unfold Call.proposal at hcq
    split at hcq
    · rename_i v b pending cur goal l hp
      have hb : b = q.ballot := congrArg Proposal.ballot (Option.some.inj hcq)
      rw [hp] at hok
      exact hb ▸ hok.2.2.1
    · cases hcq

theorem Owned.run (h : Owned s) (hinv : RoundInv s) (hr : run Dstore.step s bs = some s') :
    Owned s' :=
  (invariant (P := fun s => RoundInv s ∧ Owned s) (fun _ _ _ h hs =>
    ⟨h.1.step (step_stepped hs), h.2.next h.1 (step_stepped hs)⟩) bs ⟨hinv, h⟩ hr).2

theorem RoundInv.ballot_lt {x : Proposal} (h : RoundInv s) (h' : RoundInv s')
    (hr : run Dstore.step s bs = some s') (hx : x ∈ s.proposals) (hn : s.calls i = none)
    (hq : q ∈ s'.proposals) (hi : q.call = i) (hnode : x.ballot.proposer = q.ballot.proposer) :
    x.ballot < q.ballot := by
  have hnew := not_issued h hr hn hq hi
  simp only [Issued, (h'.proposal q hq).issued.1, ne_eq, not_false_eq_true, true_and, not_le] at hnew
  refine Ballot.lt_iff.2 (.inl (lt_of_le_of_lt (h.proposal x hx).issued.2 ?_))
  rwa [hnode]

end proposals

namespace Leases

variable {C : Codec Lease} {s s' : State} {as : List Action} {a : Action} {i : ℕ} {k : Kind}
  {vs : List Voter} {A : NodeID} {E now ttl : ℤ}

/-- The call that an action begins. -/
def begins (s : State) : Action → Option (ℕ × Kind)
  | .acquire i node ttl => some (i, .acquire node s.clock ttl)
  | .release i node => some (i, .release node)
  | .settle i node => some (i, .settle node)
  | _ => none

/-- A step is the clock's, or the catalog's with a lease's function. -/
theorem step_cases (h : step C s a = some s') :
    (∃ d : ℕ, s' = { s with clock := s.clock + d }) ∨
    (∃ i k sys, begins s a = some (i, k) ∧
      Dstore.step s.sys (.propose i k.node regLease (k.fn C) 0 {}) = some sys ∧
      s' = { s with sys, kinds := Function.update s.kinds i (some k) }) ∨
    ∃ b sys, isNet b ∧ Dstore.step s.sys b = some sys ∧ s' = { s with sys } := by
  cases a with
  | tick d => exact .inl ⟨d, (Option.some.inj h).symm⟩
  | acquire i node ttl =>
    obtain ⟨sys, hs, rfl⟩ := Option.map_eq_some_iff.1 h
    exact .inr (.inl ⟨i, _, sys, rfl, hs, rfl⟩)
  | release i node =>
    obtain ⟨sys, hs, rfl⟩ := Option.map_eq_some_iff.1 h
    exact .inr (.inl ⟨i, _, sys, rfl, hs, rfl⟩)
  | settle i node =>
    obtain ⟨sys, hs, rfl⟩ := Option.map_eq_some_iff.1 h
    exact .inr (.inl ⟨i, _, sys, rfl, hs, rfl⟩)
  | net b =>
    simp only [step] at h
    split_ifs at h with hb
    obtain ⟨sys, hs, rfl⟩ := Option.map_eq_some_iff.1 h
    exact .inr (.inr ⟨b, sys, hb, hs, rfl⟩)

theorem quiet_of_isNet {b : Dstore.Action Vars Err} (h : isNet b) : Quiet b := by
  cases b <;> first | rfl | cases h

theorem sys_run : ∀ {as : List Action} {s : State}, run (step C) s as = some s' →
    ∃ bs, run Dstore.step s.sys bs = some s'.sys ∧ ∀ b ∈ bs, Quiet b
  | [], s, h => by
    obtain rfl := Option.some.inj h
    exact ⟨[], rfl, by simp⟩
  | a :: as, s, h => by
    obtain ⟨m, hm, h⟩ := run_cons.1 h
    obtain ⟨bs, hbs, hq⟩ := sys_run h
    rcases step_cases hm with ⟨d, rfl⟩ | ⟨i, k, sys, -, hs, rfl⟩ | ⟨b, sys, hb, hs, rfl⟩
    · exact ⟨bs, hbs, hq⟩
    · refine ⟨_ :: bs, run_cons.2 ⟨sys, hs, hbs⟩, ?_⟩
      simpa using ⟨rfl, hq⟩
    · refine ⟨b :: bs, run_cons.2 ⟨sys, hs, hbs⟩, ?_⟩
      simpa using ⟨quiet_of_isNet hb, hq⟩

theorem release_mem : ∀ {as : List Action} {s : State}, run (step C) s as = some s' →
    s'.kinds i = some (.release A) → s.kinds i = some (.release A) ∨ .release i A ∈ as
  | [], s, h, hi => by
    obtain rfl := Option.some.inj h
    exact .inl hi
  | a :: as, s, h, hi => by
    obtain ⟨m, hm, h⟩ := run_cons.1 h
    rcases release_mem h hi with hi | hi
    · rcases step_cases hm with ⟨d, rfl⟩ | ⟨j, k, sys, hk, -, rfl⟩ | ⟨b, sys, -, -, rfl⟩
      · exact .inl hi
      · by_cases hij : i = j
        · subst hij
          simp only [Function.update_self, Option.some.injEq] at hi
          subst hi
          cases a <;> simp [begins] at hk
          obtain ⟨rfl, rfl⟩ := hk
          exact .inr (by simp)
        · simp only [Function.update_of_ne hij] at hi
          exact .inl hi
      · exact .inl hi
    · exact .inr (List.mem_cons_of_mem a hi)

/-- Before any call. -/
structure Initial (vs : List Voter) (s : State) : Prop where
  sys : Dstore.Initial s.sys
  fixed : Fixed vs s.sys
  kinds : ∀ i, s.kinds i = none

/-- Calls are what was called, and samples are not ahead of the clock. -/
structure KindsOk (C : Codec Lease) (s : State) : Prop where
  calls : ∀ i c, s.sys.calls i = some c →
    ∃ k, s.kinds i = some k ∧ c.node = k.node ∧ c.fn = k.fn C ∧ c.reg = regLease
  sampled : ∀ i node now ttl, s.kinds i = some (.acquire node now ttl) → now ≤ s.clock

theorem calls_net {b : Dstore.Action Vars Err} {t t' : Dstore.State Vars Err} (hb : isNet b)
    (hs : Stepped t b t') (hn : t.calls i = none) : t'.calls i = none := by
  have hput : ∀ (u : Dstore.State Vars Err) j c d, u.calls = t.calls → t.calls j = some c →
      (u.update j d).calls i = none := by
    intro u j c d hu hc
    have hij : i ≠ j := by
      rintro rfl
      simp [hn] at hc
    simpa [State.update, Function.update_of_ne hij, hu] using hn
  cases hs with
  | turn ht =>
    cases ht with
    | propose => cases hb
    | stop hc | hear hc | fail hc | close hc | wake hc => exact hput t _ _ _ rfl hc
  | attempt hc => exact hput { t with counter := _ } _ _ _ rfl hc
  | _ => exact hn

theorem KindsOk.net (h : KindsOk C s) (hinv : RoundInv s.sys) {b : Dstore.Action Vars Err}
    {sys : Dstore.State Vars Err} (hb : isNet b) (hs : Stepped s.sys b sys) :
    KindsOk C { s with sys } where
  calls i c' hc' := by
    rcases hc : s.sys.calls i with _ | c
    · simp [calls_net hb hs hc] at hc'
    · obtain ⟨c₁, hc₁, hsame⟩ := hinv.same hs hc
      obtain rfl := Option.some.inj (hc'.symm.trans hc₁)
      obtain ⟨k, hk, hnode, hfn, hreg⟩ := h.calls i c hc
      exact ⟨k, hk, hsame.node.trans hnode, hsame.fn.trans hfn, hsame.reg.trans hreg⟩
  sampled := h.sampled

/-- Calls stay of their kind. -/
theorem KindsOk.step (h : KindsOk C s) (hinv : RoundInv s.sys) (hs : Leases.step C s a = some s') :
    KindsOk C s' := by
  rcases step_cases hs with ⟨d, rfl⟩ | ⟨i, k, sys, hk, hsys, rfl⟩ | ⟨b, sys, hb, hsys, rfl⟩
  · exact ⟨h.calls, fun i node now ttl hi => (h.sampled i node now ttl hi).trans
      (show s.clock ≤ s.clock + d by omega)⟩
  · have hcalls : sys.calls = Function.update s.sys.calls i
        (some ⟨k.node, regLease, k.fn C, 0, {}, ⊥, none, .ready⟩) := by
      simp only [Dstore.step] at hsys
      split at hsys
      · cases hsys
      · obtain rfl := Option.some.inj hsys
        rfl
    refine ⟨fun j c hc => ?_, fun j node now ttl hj => ?_⟩
    · by_cases hji : j = i
      · subst hji
        simp only [hcalls, Function.update_self, Option.some.injEq] at hc
        subst hc
        exact ⟨k, Function.update_self .., rfl, rfl, rfl⟩
      · simp only [hcalls, Function.update_of_ne hji] at hc
        simpa [Function.update_of_ne hji] using h.calls j c hc
    · by_cases hji : j = i
      · subst hji
        simp only [Function.update_self, Option.some.injEq] at hj
        subst hj
        cases a <;> simp only [begins, Option.some.injEq, Prod.mk.injEq, reduceCtorEq, and_false,
          Kind.acquire.injEq] at hk
        exact hk.2.2.1.ge
      · simp only [Function.update_of_ne hji] at hj
        exact h.sampled j node now ttl hj
  · exact h.net hinv hb (step_stepped hsys)

theorem roundInv_step (hinv : RoundInv s.sys) (hs : Leases.step C s a = some s') :
    RoundInv s'.sys := by
  rcases step_cases hs with ⟨d, rfl⟩ | ⟨i, k, sys, -, hsys, rfl⟩ | ⟨b, sys, -, hsys, rfl⟩
  · exact hinv
  · exact hinv.step (step_stepped hsys)
  · exact hinv.step (step_stepped hsys)

/-- Calls are of their kind, on a catalog without purges. -/
structure Inv (C : Codec Lease) (vs : List Voter) (s : State) : Prop extends KindsOk C s where
  held : Held vs s.sys
  noPurge : NoPurge s.sys
  owned : Owned s.sys

theorem Inv.init (h : Initial vs s) : Inv C vs s where
  calls i c hc := by simp [h.sys.calls] at hc
  sampled i node now ttl hi := by simp [h.kinds] at hi
  held := .init h.sys h.fixed
  noPurge := by simp [NoPurge, h.sys.sent]
  owned q hq := by simp [h.sys.proposals] at hq

theorem Inv.run (h : Inv C vs s) (hr : Machine.run (step C) s as = some s') : Inv C vs s' := by
  obtain ⟨bs, hbs, hq⟩ := sys_run hr
  have hkinds := (invariant (P := fun s => RoundInv s.sys ∧ KindsOk C s) (fun _ _ _ h hs =>
    ⟨roundInv_step h.1 hs, h.2.step h.1 hs⟩) as ⟨h.held.toRoundInv, h.toKindsOk⟩ hr).2
  refine ⟨hkinds, h.held.run (fun b hb => Quiet.kept (hq b hb)) hbs, ?_,
    h.owned.run h.held.toRoundInv hbs⟩
  exact invariant_along (fun _ _ _ h hb hs => h.next (step_stepped hs) (Quiet.unpurged hb)) bs
    h.noPurge (along_of_forall _ hq) hbs

theorem Inv.calls_none (h : Inv C vs s) (hi : s.kinds i = none) : s.sys.calls i = none := by
  rcases hc : s.sys.calls i with _ | c
  · rfl
  · obtain ⟨k, hk, -⟩ := h.calls i c hc
    simp [hi] at hk

theorem Inv.proposer (h : Inv C vs s) {q : Proposal} (hq : q ∈ s.sys.proposals)
    (hk : s.kinds q.call = some k) : q.ballot.proposer = k.node := by
  obtain ⟨c, hc, hnode⟩ := h.owned q hq
  obtain ⟨k', hk', hn, -⟩ := h.calls q.call c hc
  obtain rfl := Option.some.inj (hk.symm.trans hk')
  exact hnode.trans hn

/-- The value names `A` as holder, at least until `E`. -/
def Good (C : Codec Lease) (A : NodeID) (E : ℤ) (x : Bytes × Bool) : Prop :=
  (found C x.1 x.2).holder = some A ∧ E ≤ (found C x.1 x.2).expires

theorem found_enc (l : Lease) : found C (C.enc l) true = l := by
  simp [found, C.dec_enc]

/-- The call is an `AcquireLease` of `A`, and the row a lease of `A` that ends later than its own.
-/
def Kind.shortens (C : Codec Lease) (A : NodeID) (cur : Row) : Kind → Bool
  | .acquire node now ttl => node = A ∧ (found C cur.value cur.hasValue).holder = some A ∧
      now + ttl < (found C cur.value cur.hasValue).expires
  | _ => false

/-- No `AcquireLease` of `A` has gone on from a lease of its own that ends later than the one it
writes. -/
def Extends (C : Codec Lease) (A : NodeID) (s : State) : Prop :=
  ∀ q ∈ s.sys.proposals, ∀ k ∈ s.kinds q.call, k.shortens C A q.cur = false

instance : Decidable (Extends C A s) :=
  inferInstanceAs (Decidable (∀ q ∈ s.sys.proposals, ∀ k ∈ s.kinds q.call, _))

/-- A call on a lease of `A` that has not ended leaves it, or writes one of `A` that ends as late,
where it is not a release of `A`. -/
theorem good_of_fn {cur : Row} {b : Ballot} {env env' : Vars} {goal : Goal Err}
    (hfn : k.fn C env cur b = (env', goal.outcome)) (hcur : Good C A E (cur.value, cur.hasValue))
    (hrel : k ≠ .release A) (hnow : ∀ node now ttl, k = .acquire node now ttl → now < E)
    (hext : k.shortens C A cur = false) : Good C A E (goal.value cur) := by
  have hkeep : ∀ e, goal.outcome = .error e → Good C A E (goal.value cur) := by
    intro e he
    cases goal with
    | change value hasValue => cases he
    | reaccept err => exact hcur
  have hwrite : ∀ x, goal.outcome = .ok x → Good C A E x → Good C A E (goal.value cur) := by
    intro x hx hg
    cases goal with
    | change value hasValue =>
      cases hx
      exact hg
    | reaccept err => cases hx
  obtain ⟨hholder, hexp⟩ := hcur
  cases k with
  | acquire node now ttl =>
    have hn := hnow node now ttl rfl
    by_cases hA : node = A
    · subst hA
      simp only [Kind.fn, acquireFn, hholder, ne_eq, not_true_eq_false, false_and, and_false,
        if_false, Prod.mk.injEq] at hfn
      refine hwrite _ hfn.2.symm ?_
      rw [Good, found_enc]
      simp only [Kind.shortens, hholder, true_and, decide_eq_false_iff_not, not_lt] at hext
      exact ⟨rfl, hexp.trans hext⟩
    · have hother : (found C cur.value cur.hasValue).holder ≠ none ∧
          (found C cur.value cur.hasValue).holder ≠ some node ∧
          now < (found C cur.value cur.hasValue).expires := by
        rw [hholder]
        exact ⟨by simp, by simpa using fun h => hA h.symm, hn.trans_le hexp⟩
      simp only [Kind.fn, acquireFn, if_pos hother, Prod.mk.injEq] at hfn
      exact hkeep _ hfn.2.symm
  | release node =>
    have hA : (found C cur.value cur.hasValue).holder ≠ some node := by
      rw [hholder]
      rintro ⟨rfl⟩
      exact hrel rfl
    simp only [Kind.fn, releaseFn, if_pos hA, Prod.mk.injEq] at hfn
    exact hkeep _ hfn.2.symm
  | settle node =>
    simp only [Kind.fn, identity, Prod.mk.injEq] at hfn
    exact hwrite _ hfn.2.symm ⟨hholder, hexp⟩

/-- A lease that is returned as acquired is chosen. -/
theorem Inv.acquired (h : Inv C vs s) {c : Call Vars Err} {l : Lease}
    {e : Option (ProposeErr Err)} (hk : s.kinds i = some (.acquire A now ttl))
    (hc : s.sys.calls i = some c) (hres : acquireLease c = some (true, l, e)) :
    l = ⟨some A, now + ttl⟩ ∧ ∃ q ∈ s.sys.proposals, q.call = i ∧ q.reg = regLease ∧
      (q.value, q.hasValue) = (C.enc l, true) ∧
      Chosen vs s.sys regLease q.ballot (C.enc l, true) := by
  have hdone : ∃ res, c.phase = .done res none ∧ c.env.cur = l := by
    unfold acquireLease at hres
    split at hres <;> simp only [Option.some.injEq, Prod.mk.injEq, reduceCtorEq, false_and] at hres
    exact ⟨_, ‹_›, hres.2.1⟩
  obtain ⟨res, hp, rfl⟩ := hdone
  obtain ⟨k, hk', -, hfn, hreg⟩ := h.calls i c hc
  obtain rfl := Option.some.inj (hk.symm.trans hk')
  obtain ⟨q, hq, hi, -, hqreg, -, ⟨env, hcomp⟩, hch⟩ :=
    h.held.toRoundInv.success h.held.voters hc hp
  rw [hfn] at hcomp
  simp only [Kind.fn, acquireFn, Goal.outcome] at hcomp
  split_ifs at hcomp
  · simp at hcomp
  · simp only [Prod.mk.injEq, Except.ok.injEq] at hcomp
    obtain ⟨henv, hval, hhas⟩ := hcomp
    have hcur : c.env.cur = ⟨some A, now + ttl⟩ := by rw [← henv]
    rw [hcur]
    refine ⟨rfl, q, hq, hi, hqreg.trans hreg, by rw [hval, hhas], ?_⟩
    rwa [← hval, ← hhas, hqreg, hreg] at hch

variable {s₀ s₁ s₂ : State} {bs cs : List Action} {j : ℕ} {B : NodeID} {now' ttl' : ℤ}
  {c d : Call Vars Err} {e e' : Option (ProposeErr Err)} {l : Lease}

/-- Over any interleaving of `AcquireLease` and `ReleaseLease` calls on one clock: where a call that
began after `s` has returned the lease to `A` until `E` in `s₁`, and every release of `A` was over
in `s`, no call of another node that begins after `s₁` and returns before `E` reports the lease,
unless an `AcquireLease` of `A` has gone on to write over a lease of its own that ends later than
its own. -/
theorem lease_exclusive (h₀ : Initial vs s₀) (hr : run (step C) s₀ as = some s)
    (hr₁ : run (step C) s bs = some s₁) (hr₂ : run (step C) s₁ cs = some s₂)
    (hi : s.kinds i = none) (hA : s₁.kinds i = some (.acquire A now ttl))
    (hc : s₁.sys.calls i = some c) (hres : acquireLease c = some (true, ⟨some A, E⟩, e))
    (hover : ∀ k, s.kinds k = some (.release A) →
      ∃ c res err, s.sys.calls k = some c ∧ c.phase = .done res err)
    (hrel : ∀ k, .release k A ∉ bs ++ cs)
    (hj : s₁.kinds j = none) (hB : s₂.kinds j = some (.acquire B now' ttl')) (hAB : B ≠ A)
    (hclock : s₂.clock < E) (hd : s₂.sys.calls j = some d) (hext : Extends C A s₂) :
    acquireLease d ≠ some (true, l, e') := by
  intro hres'
  have h : Inv C vs s := (Inv.init h₀).run hr
  have h₁ : Inv C vs s₁ := h.run hr₁
  have h₂ : Inv C vs s₂ := h₁.run hr₂
  obtain ⟨bs', hbs, hqb⟩ := sys_run hr₁
  obtain ⟨cs', hcs, hqc⟩ := sys_run hr₂
  obtain ⟨-, q, hq, hqi, hqreg, -, hch⟩ := h₁.acquired hA hc hres
  obtain ⟨rfl, p, hp, hpj, hpreg, hpval, -⟩ := h₂.acquired hB hd hres'
  -- the other call's ballot is above the lease
  have habove : q.ballot < p.ballot := by
    obtain ⟨Q, hQ, hvotes⟩ := hch
    refine proposal_above h₁.held (fun b hb => Quiet.kept (hqc b hb)) hcs (h₁.calls_none hj) hp hpj hQ
      fun w hw => ?_
    rw [hpreg]
    exact (hvotes w hw).pledged
  have hch₂ : Chosen vs s₂.sys regLease q.ballot (C.enc ⟨some A, E⟩, true) := by
    obtain ⟨Q, hQ, hvotes⟩ := hch
    refine ⟨Q, hQ, fun w hw => (hvotes w hw).mono fun _ he => ?_⟩
    rw [log_run hcs]
    exact List.mem_append_right _ he
  have hgood := (h₂.held.agreement h₂.noPurge).induction_above (P := Good C A E) h₂.held.toInv hch₂
    (by rw [Good, found_enc]; exact ⟨rfl, le_rfl⟩) (fun x hx hxreg hlt hcur => ?_) p hp hpreg
    habove.le
  · rw [hpval, Good, found_enc] at hgood
    exact hAB (Option.some.inj hgood.1)
  · obtain ⟨cx, hcx, -, env, env', goal, hfn, hval, -⟩ := (h₂.held.proposal x hx).origin
    obtain ⟨k, hk, hnode, hkfn, -⟩ := h₂.calls x.call cx hcx
    rw [← hval]
    refine good_of_fn (hkfn ▸ hfn) hcur ?_ (fun node now ttl hkk => ?_) (hext x hx k hk)
    · -- a release of the holder was over before, and has lower ballots
      rintro rfl
      have hk₀ := (release_mem (run_append.2 ⟨_, hr₁, hr₂⟩) hk).resolve_right (hrel x.call)
      obtain ⟨c', res, err, hc', hp'⟩ := hover x.call hk₀
      have hx₀ := done_proposals (run_append.2 ⟨_, hbs, hcs⟩) hc' hp' x hx rfl
      refine absurd hlt (h.held.toRoundInv.ballot_lt h₁.held.toRoundInv hbs hx₀
        (h.calls_none hi) hq hqi ?_).not_gt
      have hqk : s₁.kinds q.call = some (.acquire A now ttl) := hqi ▸ hA
      exact (h₂.proposer hx hk).trans (h₁.proposer hq hqk).symm
    · exact (h₂.sampled x.call node now ttl (hkk ▸ hk)).trans_lt hclock

/-- An encoding to run the register with. -/
def leaseCodec : Codec Lease :=
  Form.codec ((Form.pair (Form.option Form.nat) (Form.nat.pair Form.nat)).retract
    (fun l => (l.holder, l.expires.toNat, (-l.expires).toNat))
    (fun p => ⟨p.1, p.2.1 - p.2.2⟩) fun l => by
      rw [Int.toNat_sub_toNat_neg])

/-- Three acceptors, and the clock at ten. -/
def start : State := { clock := 10, sys := Trio.start Vars Err }

/-- A call prepares at `b` with the first two voters, which have `row`, and has them accept `l`. -/
def writes (i : ℕ) (b : Ballot) (row : Row) (l : Lease) : List Action :=
  (Trio.prepare i regLease b [(1, row), (2, row)] ++
    Trio.accept i regLease b (leaseCodec.enc l) [1, 2]).map .net

/-- The second of two calls of one node is written first. -/
def renewed : List Action :=
  [.acquire 0 1 3, .tick 1, .acquire 1 1 3] ++ writes 1 ⟨1, 1⟩ {} ⟨some 1, 14⟩

/-- Then the first, with its earlier expiry, and another node takes over. -/
def shortened : List Action :=
  writes 0 ⟨2, 1⟩ ⟨⟨1, 1⟩, leaseCodec.enc ⟨some 1, 14⟩, true⟩ ⟨some 1, 13⟩ ++
    [.tick 2, .acquire 2 2 3] ++
    writes 2 ⟨3, 2⟩ ⟨⟨2, 1⟩, leaseCodec.enc ⟨some 1, 13⟩, true⟩ ⟨some 2, 16⟩

/-- What a call has returned. -/
def State.returned (s : State) (i : ℕ) : Option (Bool × Lease × Option (ProposeErr Err)) :=
  (s.sys.calls i).bind acquireLease

/-- Node 1 is told that it holds the lease until 14, before node 2 calls; node 2 calls at 13, and is
told at 13 that it holds the lease. -/
theorem lease_shortened :
    ((run (step leaseCodec) start renewed).map fun s => (s.clock, s.kinds 2)) = some (11, none) ∧
    ((run (step leaseCodec) start renewed).bind fun s => s.returned 1) =
      some (true, ⟨some 1, 14⟩, none) ∧
    ((run (step leaseCodec) start (renewed ++ shortened)).map fun s => (s.clock, s.kinds 2)) =
      some (13, some (.acquire 2 13 3)) ∧
    ((run (step leaseCodec) start (renewed ++ shortened)).bind fun s => s.returned 2) =
      some (true, ⟨some 2, 16⟩, none) := by
  decide +kernel

/-- A lease is taken. -/
def acquiredOnce : List Action := [.acquire 0 1 3] ++ writes 0 ⟨1, 1⟩ {} ⟨some 1, 13⟩

/-- Another node asks before it is over. -/
def refused : List Action :=
  [.tick 2, .acquire 1 2 3] ++
    writes 1 ⟨2, 2⟩ ⟨⟨1, 1⟩, leaseCodec.enc ⟨some 1, 13⟩, true⟩ ⟨some 1, 13⟩

/-- Another node is refused while the lease runs. -/
theorem lease_exclusive_refused : ∃ s₁ s₂, run (step leaseCodec) start acquiredOnce = some s₁ ∧
    run (step leaseCodec) s₁ refused = some s₂ ∧
    s₁.returned 0 = some (true, ⟨some 1, 13⟩, none) ∧ s₂.clock = 12 ∧
    ∃ d, s₂.sys.calls 1 = some d ∧ ∀ l e, acquireLease d ≠ some (true, l, e) := by
  have h₁ := Option.some_get (show (run (step leaseCodec) start acquiredOnce).isSome = true by
    decide +kernel)
  have h₂ := Option.some_get (show (run (step leaseCodec)
    ((run (step leaseCodec) start acquiredOnce).get (by decide +kernel)) refused).isSome = true by
    decide +kernel)
  have hres : ((run (step leaseCodec) start acquiredOnce).get (by decide +kernel)).returned 0 =
      some (true, ⟨some 1, 13⟩, none) := by decide +kernel
  obtain ⟨c, hc, hacq⟩ := Option.bind_eq_some_iff.1 hres
  have hd := Option.some_get (show (((run (step leaseCodec)
    ((run (step leaseCodec) start acquiredOnce).get (by decide +kernel)) refused).get
      (by decide +kernel)).sys.calls 1).isSome = true by decide +kernel)
  refine ⟨_, _, h₁.symm, h₂.symm, hres, by decide +kernel, _, hd.symm, fun l e => ?_⟩
  have h₀ : Initial Trio.view.voters start :=
    ⟨Trio.start_initial _ _, Trio.start_fixed _ _, fun _ => rfl⟩
  exact lease_exclusive (i := 0) (j := 1) h₀ (run_nil start) h₁.symm h₂.symm rfl
    (show _ = some (Kind.acquire 1 10 3) by decide +kernel) hc hacq (fun k hk => by cases hk)
    (by simp [acquiredOnce, refused, writes]) (by decide +kernel)
    (show _ = some (Kind.acquire 2 12 3) by decide +kernel) (by decide) (by decide +kernel) hd.symm
    (by decide +kernel)

end Leases

end Dstore

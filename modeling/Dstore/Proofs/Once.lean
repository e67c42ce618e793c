import Dstore.Proofs.Answers

/-!
# A call's values in the chain

Where no voter accepts the value of a round that its call gave up on, a call that returns no error
has exactly one of the values it computed in the register's chain, and one with an error other than
an unknown outcome has none.
-/

namespace Dstore

open Machine

variable {σ ε : Type} {s s₀ s' : State σ ε} {as bs : List (Action σ ε)} {act : Action σ ε}
  {vs : List Voter} {i j : ℕ} {c c' : Call σ ε} {q : Proposal} {reg : Bytes} {b : Ballot}
  {res : Result} {err : Option (ProposeErr ε)}

/-- The ballot at which a value the call computed may still count: that of the round it is in, or
of its result. -/
def Call.stake (c : Call σ ε) : Option Ballot :=
  match c.phase with
  | .round _ b _ (.accept _ (.change _ _) _) => some b
  | .done res none => some res.ballot
  | .done res (some (.round (.unknown _ _))) => some res.ballot
  | _ => none

/-- The call computed the value and its round at that ballot is over, without being its result. -/
def GaveUp (s : State σ ε) (q : Proposal) : Prop :=
  q.isChange = true ∧ ∀ c ∈ s.calls q.call, c.stake ≠ some q.ballot

/-- Some voter has accepted what was proposed. -/
def Taken (vs : List Voter) (s : State σ ε) (q : Proposal) : Prop :=
  ∃ w ∈ ids vs, Voted s.log w q.reg q.ballot (q.value, q.hasValue)

instance : Decidable (GaveUp s q) := inferInstanceAs (Decidable (_ ∧ _))

instance : Decidable (Taken vs s q) := inferInstanceAs (Decidable (∃ w ∈ ids vs, _))

/-- The ballot is part of the register's chosen chain: chosen, or one that a chosen value was
computed on, directly or through others. -/
def OnChain (vs : List Voter) (s : State σ ε) (reg : Bytes) (b : Ballot) : Prop :=
  ∃ b' x, Chosen vs s reg b' x ∧ Relation.ReflTransGen (Parent s reg) b' b

theorem Inv.onChain_taken (h : Inv vs s) (hq : q ∈ s.proposals) (ho : OnChain vs s q.reg q.ballot) :
    Taken vs s q := by
  have hval : ∀ w x, w ∈ ids vs → Voted s.log w q.reg q.ballot x → Taken vs s q := by
    intro w x hw hv
    obtain ⟨q', hq', -, hb, rfl⟩ := h.voted_proposal hv
    obtain rfl := h.unique q' hq' q hq hb
    exact ⟨w, hw, hv⟩
  obtain ⟨b', x, hc, hreach⟩ := ho
  rcases hreach.cases_tail with heq | ⟨m, -, p, hp, hr, -, ha⟩
  · obtain ⟨w, hw, hv⟩ := hc.voted
    exact hval w x hw (heq ▸ hv)
  · have hok := h.proposal p hp
    have hne : p.cur.accepted ≠ ⊥ := ha ▸ (h.proposal q hq).issued.1
    obtain ⟨w, hw, hv⟩ := (h.cur_row hok.view hok.quorum).2.1 hne
    exact hval w _ hw (ha ▸ hr ▸ hv)

/-- A call that is done stays so. -/
theorem Stepped.done (hs : Stepped s act s') (hc : s.calls i = some c)
    (hp : c.phase = .done res err) : s'.calls i = some c := by
  have hother : ∀ j (d : Call σ ε), (∀ e, s.calls j = some e → e.phase ≠ .done res err) →
      (s.update j d).calls i = some c := by
    intro j d hj
    have hij : i ≠ j := fun h => hj c (h ▸ hc) hp
    simpa [State.update, Function.update_of_ne hij] using hc
  cases hs with
  | turn ht =>
    cases ht with
    | propose _ _ _ _ _ hn => exact hother _ _ fun e he => by simp [hn] at he
    | stop h he =>
      refine hother _ _ fun e he' hd => ?_
      obtain rfl := Option.some.inj (h.symm.trans he')
      simp [hd, stoppable] at he
    | hear h hph =>
      refine hother _ _ fun e he' hd => ?_
      obtain rfl := Option.some.inj (h.symm.trans he')
      simp [hd] at hph
    | fail h hph =>
      refine hother _ _ fun e he' hd => ?_
      obtain rfl := Option.some.inj (h.symm.trans he')
      simp [hd] at hph
    | close h hph =>
      refine hother _ _ fun e he' hd => ?_
      obtain rfl := Option.some.inj (h.symm.trans he')
      simp [hd] at hph
    | wake h hph =>
      refine hother _ _ fun e he' hd => ?_
      obtain rfl := Option.some.inj (h.symm.trans he')
      simp [hd] at hph
  | @attempt j d v b h hph =>
    have hij : i ≠ j := by
      rintro rfl
      obtain rfl := Option.some.inj (h.symm.trans hc)
      simp [hp] at hph
    simpa [State.update, Function.update_of_ne hij] using hc
  | _ => exact hc

theorem done_run (hr : run step s bs = some s') (hc : s.calls i = some c)
    (hp : c.phase = .done res err) : s'.calls i = some c :=
  invariant (P := fun s => s.calls i = some c)
    (fun _ _ _ h hs => (step_stepped hs).done h hp) bs hc hr

section outcome

variable (h : Inv vs s)
  (hgave : ∀ q ∈ s.proposals, q.call = i → GaveUp s q → ¬ Taken vs s q)
  (hc : s.calls i = some c)
include h hgave hc

theorem Inv.none_onChain (hs : c.stake = none) :
    ∀ q ∈ s.proposals, q.call = i → q.isChange = true → ¬ OnChain vs s q.reg q.ballot := by
  rintro q hq rfl hch ho
  refine hgave q hq rfl ⟨hch, fun d hd => ?_⟩ (h.onChain_taken hq ho)
  obtain rfl := Option.some.inj (hc.symm.trans hd)
  simp [hs]

theorem Inv.one_onChain (hp : c.phase = .done res none) :
    ∃ q ∈ s.proposals, (q.call = i ∧ q.isChange = true ∧ OnChain vs s q.reg q.ballot) ∧
      ∀ q' ∈ s.proposals, q'.call = i → q'.isChange = true → OnChain vs s q'.reg q'.ballot →
        q' = q := by
  obtain ⟨q, hq, rfl, hch, -, hres, -, hchosen⟩ := h.toRoundInv.success h.voters hc hp
  refine ⟨q, hq, ⟨rfl, hch, q.ballot, _, hchosen, .refl⟩, fun q' hq' hi hch' ho => ?_⟩
  by_contra hne
  refine hgave q' hq' hi ⟨hch', fun d hd => ?_⟩ (h.onChain_taken hq' ho)
  obtain rfl := Option.some.inj (hc.symm.trans (hi ▸ hd))
  rw [Call.stake, hp, hres]
  intro heq
  exact hne (h.unique q' hq' q hq (Option.some.inj heq).symm)

end outcome

/-- Over every run of a fixed voter set, from the moment a call has returned on: where no voter has
accepted a value of the call that it gave up, the call has exactly one of its values on the chain if
it returned no error, and none if it returned an error other than an unknown outcome. -/
theorem values_on_chain (h₀ : Initial s₀) (hf : Fixed vs s₀) (hq : ∀ a ∈ as ++ bs, Quiet a)
    (hr : run step s₀ as = some s) (hc : s.calls i = some c) (hp : c.phase = .done res err)
    (hr' : run step s bs = some s')
    (hgave : ∀ q ∈ s'.proposals, q.call = i → GaveUp s' q → ¬ Taken vs s' q) :
    (err = none → ∃ q ∈ s'.proposals,
      (q.call = i ∧ q.isChange = true ∧ OnChain vs s' q.reg q.ballot) ∧
      ∀ q' ∈ s'.proposals, q'.call = i → q'.isChange = true → OnChain vs s' q'.reg q'.ballot →
        q' = q) ∧
    (∀ e, err = some e → (∀ n k, e ≠ .round (.unknown n k)) →
      ∀ q ∈ s'.proposals, q.call = i → q.isChange = true → ¬ OnChain vs s' q.reg q.ballot) := by
  have hrun := run_append.2 ⟨s, hr, hr'⟩
  obtain ⟨h, -, -⟩ := inv_run_quiet h₀ hf hq hrun
  have hc' := done_run hr' hc hp
  refine ⟨?_, ?_⟩
  · rintro rfl
    exact h.one_onChain hgave hc' hp
  · rintro e rfl hne
    refine h.none_onChain hgave hc' ?_
    rw [Call.stake, hp]
    split <;> rename_i heq
    · cases heq
    · cases heq
    · cases heq
      exact absurd rfl (hne _ _)
    · rfl

theorem values_on_chain_detour : ∃ s, run step (Trio.start Unit Unit) Trio.detour = some s ∧
    (∃ c ∈ s.calls 1, c.phase = .done ⟨⟨1, 1⟩, [1], true⟩ none) ∧
    ∃ q ∈ s.proposals,
      (q.call = 1 ∧ q.isChange = true ∧ OnChain Trio.view.voters s q.reg q.ballot) ∧
      ∀ q' ∈ s.proposals, q'.call = 1 → q'.isChange = true →
        OnChain Trio.view.voters s q'.reg q'.ballot → q' = q := by
  obtain ⟨s, hs, hgave, c, hc, hp⟩ : ∃ s ∈ run step (Trio.start Unit Unit) Trio.detour,
      (∀ q ∈ s.proposals, q.call = 1 → GaveUp s q → ¬ Taken Trio.view.voters s q) ∧
      ∃ c ∈ s.calls 1, c.phase = .done ⟨⟨1, 1⟩, [1], true⟩ none := by
    decide +kernel
  have hnil : run step s [] = some s := rfl
  exact ⟨s, hs, ⟨c, hc, hp⟩, (values_on_chain (Trio.start_initial _ _)
    (Trio.start_fixed _ _) (by decide +kernel) hs hc hp hnil hgave).1 rfl⟩

/-- Voters 1 and 2 accept call 1's first value `x`, but the conflict of voter 3, which has promised
a ballot of call 2, is heard first; the call tries again, and its second accept round carries
`y`. -/
def Trio.ownConflict (fn : ChangeFunc σ ε) (env : σ) (x y : Bytes) : List (Action σ ε) :=
  [.propose 1 1 regView fn 0 env, .propose 2 2 regView fn 0 env] ++
  prepare 1 regView ⟨1, 1⟩ [(1, {}), (2, {})] ++
  [.attempt 2 view ⟨2, 2⟩, .deliver 3 ⟨1, 1, .prepare regView ⟨2, 2⟩⟩ 0,
    .deliver 1 ⟨1, 1, .accept regView ⟨1, 1⟩ x true 0⟩ 0,
    .deliver 2 ⟨1, 1, .accept regView ⟨1, 1⟩ x true 0⟩ 0,
    .deliver 3 ⟨1, 1, .accept regView ⟨1, 1⟩ x true 0⟩ 0,
    .hear 1 3 .first ⟨1, 1, .conflict ⟨2, 2⟩⟩, .wake 1] ++
  prepare 1 regView ⟨3, 1⟩ [(1, ⟨⟨1, 1⟩, x, true⟩), (2, ⟨⟨1, 1⟩, x, true⟩)] ++
  accept 1 regView ⟨3, 1⟩ y [1, 2]

/-- An `InitView` that reports that a view exists though its own view is the one chosen, and a
call that reports success with two of its values chosen. -/
theorem own_value_given_up :
    (∃ s ∈ run step (Trio.start Vars CatalogErr) (Trio.ownConflict (initViewFn viewCodec Trio.view)
        {} (viewCodec.enc Trio.view) (viewCodec.enc Trio.view)),
      (∃ c ∈ s.calls 1, c.phase = .done ⟨⟨1, 1⟩, viewCodec.enc Trio.view, true⟩
        (some (.fn .viewExists))) ∧
      ∃ q ∈ s.proposals, q.call = 1 ∧ q.isChange = true ∧
        Chosen Trio.view.voters s q.reg q.ballot (q.value, q.hasValue)) ∧
    ∃ s ∈ run step (Trio.start Unit Unit) (Trio.ownConflict (Trio.append 1) () [1] [1, 1]),
      (∃ c ∈ s.calls 1, c.phase = .done ⟨⟨3, 1⟩, [1, 1], true⟩ none) ∧
      ∃ q ∈ s.proposals, ∃ q' ∈ s.proposals, q ≠ q' ∧ q.call = 1 ∧ q'.call = 1 ∧
        q.isChange = true ∧ q'.isChange = true ∧
        Chosen Trio.view.voters s q.reg q.ballot (q.value, q.hasValue) ∧
        Chosen Trio.view.voters s q'.reg q'.ballot (q'.value, q'.hasValue) := by
  decide +kernel

end Dstore

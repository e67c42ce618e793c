import Dstore.Catalog
import Dstore.Proofs.Agreement

/-!
# Answers that are decided

A call that returns its change function's error with a row has put that row through an accept
round. Unless that ended with some accepts but no majority, the row's value is chosen by then.
-/

namespace Dstore

open Machine

section decided

variable {σ ε : Type} {s : State σ ε} {vs : List Voter} {i : ℕ} {c : Call σ ε} {res : Result}
  {err : ε}

/-- A call that returns its change function's error ran it on the row it returns, and that row is
chosen, or there is no row, unless the re-accept ended unknown. -/
theorem RoundInv.mismatch_chosen (h : RoundInv s) (hvs : ∀ v ∈ s.views, v.voters = vs)
    (hc : s.calls i = some c) (ha : ∀ n k, c.aerr ≠ some (.unknown n k))
    (hp : c.phase = .done res (some (.fn err))) :
    ∃ cur b, c.Computed cur b (.reaccept err) ∧
      (res = {} ∧ cur.accepted = ⊥ ∧ cur.hasValue = false ∨
        res = ⟨cur.accepted, cur.value, cur.hasValue⟩ ∧
          Chosen vs s c.reg b (cur.value, cur.hasValue)) := by
  have hok := h.call i c hc
  rw [CallOk, hp] at hok
  rcases hok with _ | _ | ⟨v, cur, b, _, hz, hn, -, hcomp⟩ | ⟨q, hq, hi, -, _, hcomp, hv⟩ |
    ⟨_, hfn, -⟩
  · exact ⟨cur, b, hcomp, .inl ⟨rfl, hz, hn⟩⟩
  · exact ⟨q.cur, q.ballot, hcomp, .inr ⟨rfl, h.reg_eq hc hq hi ▸
      (hv ha).chosen (hvs _ (h.proposal q hq).view)⟩⟩
  · exact absurd rfl (hfn err)

end decided

section reaccept

variable {σ ε : Type} {s s' s₀ : State σ ε} {as : List (Action σ ε)} {act : Action σ ε} {i : ℕ}
  {c : Call σ ε} {v : View} {b : Ballot} {pending : List (NodeID × Stage)} {r : Round ε} {cur : Row}
  {goal : Goal ε}

/-- A re-accept round of call `i` that closes, every voter heard and no majority reached, got no
accept at all. -/
def reacceptsHeard (i : ℕ) (s : State σ ε) : Action σ ε → Bool
  | .close j =>
    match (s.calls j).map Call.phase with
    | some (.round _ _ _ (.accept _ (.reaccept _) l)) => j ≠ i || l.accepted = 0
    | _ => true
  | _ => true

/-- The call's last re-accept round did not end unknown. -/
def Call.Known (c : Call σ ε) : Prop := ∀ n k, c.aerr ≠ some (.unknown n k)

theorem AcceptLoop.reply_known {l : AcceptLoop} {o : Except RoundErr Unit} {m : Option Answer}
    (h : l.reply v m = .ret o) : ∀ n k, o ≠ .error (.unknown n k) := by
  rintro n k rfl
  unfold AcceptLoop.reply at h
  split at h <;> try simp at h
  split_ifs at h
  cases h

theorem Call.Known.handleRoundError (h : c.Known) (e : RoundErr) :
    (c.handleRoundError e).Known := by
  unfold Call.handleRoundError
  split <;> exact h

theorem Call.Known.prepared (h : c.Known) (o : Except RoundErr Row) : (c.prepared v b o).Known := by
  unfold Call.prepared
  split
  · exact h.handleRoundError _
  · split
    · split_ifs <;> exact h
    · exact h

theorem Call.Known.accepted (h : c.Known) {o : Except RoundErr Unit}
    (ho : ∀ err n k, goal = .reaccept err → o ≠ .error (.unknown n k)) :
    (c.accepted b cur goal o).Known := by
  unfold Call.accepted
  split
  · exact h
  · exact h
  · exact h.handleRoundError _
  · exact fun n k hk => by cases hk
  · exact absurd rfl (ho _ _ _ rfl)
  · rename_i e hne
    refine Call.Known.handleRoundError (fun n k hk => ?_) e
    cases hk
    exact hne n k rfl

theorem Call.Known.reply (h : c.Known) (m : Option Answer) :
    (c.reply v b pending m r).Known := by
  cases r with
  | prepare l =>
    simp only [Call.reply]
    split
    · exact h
    · exact h.prepared _
  | accept cur goal l =>
    simp only [Call.reply]
    split
    · exact h
    · rename_i o ho
      exact h.accepted fun err n k _ => AcceptLoop.reply_known ho n k

/-- A step that `reacceptsHeard` allows leaves the call's last re-accept round known. -/
theorem known_step (h : ∀ c, s.calls i = some c → c.Known) (hok : reacceptsHeard i s act = true)
    (hs : step s act = some s') : ∀ c, s'.calls i = some c → c.Known := by
  have hput : ∀ j d, (j = i → d.Known) → ∀ c, Function.update s.calls j (some d) i = some c →
      c.Known := by
    intro j d hd c hc
    by_cases hij : j = i
    · subst hij
      rw [Function.update_self, Option.some.injEq] at hc
      exact hc ▸ hd rfl
    · rw [Function.update_of_ne (Ne.symm hij)] at hc
      exact h c hc
  obtain ⟨ht⟩ | ⟨hc, -, -, -, -, -⟩ | _ | _ | _ | _ := step_stepped hs
  · refine hput _ _ ?_
    rintro rfl
    cases ht with
    | propose => exact fun n k hk => by cases hk
    | stop hc =>
      have hk := h _ hc
      exact hk
    | hear hc =>
      have hk := h _ hc
      unfold Call.hear
      split
      · exact hk
      · exact hk
      · exact hk.reply _
    | fail hc => exact (h _ hc).reply _
    | @close i c v b r hc hp =>
      cases r with
      | prepare l => exact (h _ hc).prepared _
      | accept cur goal l =>
        refine (h _ hc).accepted fun err n k hg hk => ?_
        subst hg
        simp only [reacceptsHeard, hc, Option.map_some, hp, ne_eq, not_true_eq_false, decide_false,
          Bool.false_or, decide_eq_true_eq] at hok
        simp [AcceptLoop.close, hok] at hk
    | wake hc =>
      have hk := h _ hc
      exact hk
  · refine hput _ _ ?_
    rintro rfl
    have hk := h _ hc
    exact hk
  all_goals exact h

theorem known_run (h₀ : Initial s₀) (hr : run step s₀ as = some s)
    (hok : Along step (fun s a => reacceptsHeard i s a) s₀ as) : ∀ c, s.calls i = some c → c.Known :=
  invariant_along (fun _ _ _ h hok hs => known_step h hok hs) as
    (fun c hc => by simp [h₀.calls] at hc) hok hr

end reaccept

section refPut

variable {refs : Codec RefValue} {record : Bytes} {cond : Cond} {keyOf : Bytes → Bytes}
  {env env' : Vars} {cur : Row} {b : Ballot}

theorem refPutFn_ok {value : Bytes} {hasValue : Bool}
    (h : refPutFn refs record cond keyOf env cur b = (env', .ok (value, hasValue))) :
    value = refs.enc { record := record, version := b.bytes } ∧ hasValue = true ∧
      env'.version = b.bytes := by
  unfold refPutFn at h
  split at h
  · cases h
  · split at h
    · split_ifs at h <;> cases h
    · cases h
      exact ⟨rfl, rfl, rfl⟩

theorem refPutFn_alreadyDone
    (h : refPutFn refs record cond keyOf env cur b = (env', .error .alreadyDone)) :
    cur.hasValue = true ∧ ∃ rv, refs.dec cur.value = some rv ∧ rv.record = record ∧
      env'.version = rv.version := by
  unfold refPutFn at h
  split at h
  · rename_i e he
    cases h
    unfold currentRef at he
    split_ifs at he
    split at he <;> cases he
  · rename_i rv present he
    split at h
    · split_ifs at h with hp
      · cases h
        unfold currentRef at he
        split_ifs at he with hv
        · split at he <;> cases he
          exact ⟨hv, rv, ‹_›, hp.2, rfl⟩
        · cases he
          simp at hp
      · cases h
    · cases h

variable {s s₀ : State Vars CatalogErr} {as : List (Action Vars CatalogErr)} {vs : List Voter}
  {i j : ℕ} {c d : Call Vars CatalogErr} {name version : Bytes} {out settle : Outcome}

/-- A `RefPut` that returns a version has its record chosen under it. -/
theorem RoundInv.refPut_chosen (h : RoundInv s) (hvs : ∀ v ∈ s.views, v.voters = vs)
    (hc : s.calls i = some c) (ha : ∀ n k, c.aerr ≠ some (.unknown n k))
    (hfn : c.fn = refPutFn refs record cond keyOf)
    (hp : c.phase = .done out.1 out.2)
    (hset : ∀ n k, out.2 = some (.round (.unknown n k)) →
      s.calls j = some d ∧ d.reg = c.reg ∧ d.phase = .done settle.1 settle.2)
    (hok : refPut refs record c.env.version out settle = .ok version) :
    ∃ b value rv, Chosen vs s c.reg b (value, true) ∧ refs.dec value = some rv ∧
      rv.record = record ∧ rv.version = version := by
  obtain ⟨res, err⟩ := out
  unfold refPut at hok
  split at hok
  · rename_i herr
    cases hok
    rw [herr] at hp
    obtain ⟨q, -, -, -, hreg, -, ⟨env, hcomp⟩, hch⟩ := h.success hvs hc hp
    rw [hfn] at hcomp
    obtain ⟨hv, hh, hver⟩ := refPutFn_ok hcomp
    rw [hh, hv, hreg] at hch
    exact ⟨_, _, _, hch, refs.dec_enc _, rfl, hver.symm⟩
  · rename_i herr
    cases hok
    rw [herr] at hp
    obtain ⟨cur, b, ⟨env, hcomp⟩, hcase⟩ := h.mismatch_chosen hvs hc ha hp
    rw [hfn] at hcomp
    obtain ⟨hval, rv, hdec, hrec, hver⟩ := refPutFn_alreadyDone hcomp
    rcases hcase with ⟨-, -, hn⟩ | ⟨-, hch⟩
    · simp [hn] at hval
    · exact ⟨b, cur.value, rv, hval ▸ hch, hdec, hrec, hver.symm⟩
  · rename_i n k herr
    obtain ⟨hd, hreg, hp'⟩ := hset n k herr
    split at hok
    · cases hok
    · rename_i hnone
      rw [hnone] at hp'
      obtain ⟨q, -, -, -, hreg', hres, -, hch⟩ := h.success hvs hd hp'
      rw [hres] at hok
      split at hok
      · rename_i rv hdec
        split_ifs at hok with hrec
        · cases hok
          split_ifs at hdec with hval
          change q.hasValue = true at hval
          rw [hreg', hreg, hval] at hch
          exact ⟨_, _, rv, hch, hdec, hrec, rfl⟩
      · cases hok
  · cases hok

/-- Over every run of a fixed voter set in which no re-accept round of the call closes with some but
fewer than a majority of accepts: the call returns its change function's error with a chosen row
only, and a `RefPut` over it returns no version but that of its chosen record. -/
theorem answers_decided (h₀ : Initial s₀) (hf : Fixed vs s₀) (hr : run step s₀ as = some s)
    (hok : Along step (fun s a => reacceptsHeard i s a) s₀ as) (hc : s.calls i = some c) :
    (∀ res err, c.phase = .done res (some (.fn err)) → res.ballot ≠ ⊥ →
      ∃ b, Chosen vs s c.reg b (res.value, res.hasValue)) ∧
    ∀ (refs : Codec RefValue) name record cond keyOf out settle j d version,
      c.reg = refReg name → c.fn = refPutFn refs record cond keyOf →
      c.phase = .done out.1 out.2 →
      (∀ n k, out.2 = some (.round (.unknown n k)) →
        s.calls j = some d ∧ d.fn = identity ∧ d.reg = refReg name ∧
          d.phase = .done settle.1 settle.2) →
      refPut refs record c.env.version out settle = .ok version →
      ∃ b value rv, Chosen vs s (refReg name) b (value, true) ∧ refs.dec value = some rv ∧
        rv.record = record ∧ rv.version = version := by
  obtain ⟨h, hvs⟩ := roundInv_run h₀ hf hr
  have ha := known_run h₀ hr hok c hc
  refine ⟨fun res err hp hne => ?_, ?_⟩
  · obtain ⟨cur, b, -, ⟨rfl, -⟩ | ⟨rfl, hch⟩⟩ := h.mismatch_chosen hvs hc ha hp
    · exact absurd rfl hne
    · exact ⟨b, hch⟩
  · intro refs name record cond keyOf out settle j d version hreg hfn hp hset hok
    rw [← hreg]
    exact h.refPut_chosen hvs hc ha hfn hp (fun n k hu => by
      obtain ⟨h1, -, h2, h3⟩ := hset n k hu
      exact ⟨h1, h2.trans hreg.symm, h3⟩) hok

end refPut

namespace Trio

/-- A put of a new reference that one voter accepts, and the same put again, which finds the first
one's record and re-accepts it. -/
def putTwice : List (Action Vars CatalogErr) :=
  let put : ChangeFunc Vars CatalogErr := refPutFn refCodec [9] { versioned := true } id
  let x := refCodec.enc { record := [9], version := Ballot.bytes ⟨1, 1⟩ }
  [.propose 1 1 (refReg [1]) put 0 {}, .propose 2 2 (refReg [1]) put 0 {}] ++
  prepare 1 (refReg [1]) ⟨1, 1⟩ [(1, {}), (2, {})] ++ accept 1 (refReg [1]) ⟨1, 1⟩ x [1] ++
  prepare 2 (refReg [1]) ⟨2, 2⟩ [(1, ⟨⟨1, 1⟩, x, true⟩), (2, {})] ++
  accept 2 (refReg [1]) ⟨2, 2⟩ x [1]

/-- What a put finds that has been done already. -/
def found : Outcome :=
  (⟨⟨1, 1⟩, refCodec.enc { record := [9], version := Ballot.bytes ⟨1, 1⟩ }, true⟩,
    some (.fn .alreadyDone))

/-- The second put does not hear from its majority. -/
def putTwiceLost : List (Action Vars CatalogErr) :=
  putTwice ++ [.fail 2 2 .first, .fail 2 3 .first, .close 2]

/-- The second put hears from its majority. -/
def putTwiceHeard : List (Action Vars CatalogErr) :=
  putTwice ++ accept 2 (refReg [1]) ⟨2, 2⟩
    (refCodec.enc { record := [9], version := Ballot.bytes ⟨1, 1⟩ }) [2]

end Trio

theorem answers_decided_heard : ∃ s, run step (Trio.start Vars CatalogErr) Trio.putTwiceHeard =
    some s ∧ (∃ c ∈ s.calls 2, c.phase = .done Trio.found.1 Trio.found.2) ∧
      ∃ b, Chosen Trio.view.voters s (refReg [1]) b (Trio.found.1.value, true) := by
  obtain ⟨s, hs, c, hc, hreg, hp⟩ : ∃ s ∈ run step (Trio.start Vars CatalogErr)
      Trio.putTwiceHeard, ∃ c ∈ s.calls 2, c.reg = refReg [1] ∧
        c.phase = .done Trio.found.1 Trio.found.2 := by
    decide +kernel
  have h := answers_decided (Trio.start_initial _ _) (Trio.start_fixed _ _) hs
    (by decide +kernel) hc
  exact ⟨s, hs, ⟨c, hc, hp⟩, hreg ▸ h.1 _ _ hp (by decide)⟩

/-- A put reports success with a version, though only one voter ever accepted its record. -/
theorem put_succeeds_undecided : ∃ s ∈ run step (Trio.start Vars CatalogErr) Trio.putTwiceLost,
    (∀ q ∈ s.proposals, ¬ Chosen Trio.view.voters s q.reg q.ballot (q.value, q.hasValue)) ∧
    ∃ c ∈ s.calls 2, c.phase = .done Trio.found.1 Trio.found.2 ∧
      refPut refCodec [9] c.env.version Trio.found Trio.found = .ok (Ballot.bytes ⟨1, 1⟩) := by
  decide +kernel

end Dstore

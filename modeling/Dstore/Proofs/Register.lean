import Dstore.Catalog
import Dstore.Proofs.Agreement
import Dstore.Lib.Log

/-!
# A typed register on the catalog

The writers of a register propose what one of their writes makes of the value they were given, or
that value again. They may be given one that no majority accepted; still every chosen value is a
state of the writes on the register's first value, and so is each chosen value of the writes on any
chosen before it.
-/

namespace Dstore

open Machine

variable {V σ ε α η : Type} {codec : Codec V} {decode present : ε} {absent : Except ε V}
  {note : V → σ → σ} {change : V → Except ε V} {first : V → Prop} {apply : α → V → Except η V}
  {fn : ChangeFunc σ ε} {s s₀ s' : State σ ε} {as : List (Action σ ε)} {act : Action σ ε}
  {vs : List Voter} {i : ℕ} {c' : Call σ ε}
  {env env' : σ} {cur : Row} {b b' : Ballot} {reg : Bytes} {x x' : Bytes × Bool} {q : Proposal}
  {u v : V}

theorem casFn_ok (h : casFn codec decode absent note change env cur b = (env', .ok x)) :
    ∃ v u, (if cur.hasValue then codec.dec cur.value = some v else absent = .ok v) ∧
      change v = .ok u ∧ x = (codec.enc u, true) ∧ env' = note u env := by
  simp only [casFn] at h
  split at h
  · cases h
  · rename_i v hfound
    split at h
    · cases h
    · rename_i u hu
      cases h
      refine ⟨v, u, ?_, hu, rfl, rfl⟩
      split_ifs at hfound ⊢
      · split at hfound
        · cases hfound
        · rename_i w hw
          cases hfound
          exact hw
      · exact hfound

theorem createIfAbsent_ok {value : Bytes}
    (h : createIfAbsent present value env cur b = (env', .ok x)) :
    cur.hasValue = false ∧ x = (value, true) := by
  simp only [createIfAbsent] at h
  split_ifs at h with hv
  · cases h
  · cases h
    exact ⟨by simpa using hv, rfl⟩

/-- On a row with a value the function proposes what a write makes of it or the value again, and on
a row without one a first value or none. -/
def Writes (codec : Codec V) (first : V → Prop) (apply : α → V → Except η V)
    (fn : ChangeFunc σ ε) : Prop :=
  ∀ env cur b env' x, fn env cur b = (env', .ok x) → x = (cur.value, cur.hasValue) ∨
    ∃ u, x = (codec.enc u, true) ∧ if cur.hasValue then
      ∃ a v, codec.dec cur.value = some v ∧ apply a v = .ok u else first u

theorem writes_identity : Writes codec first apply (identity : ChangeFunc σ ε) := by
  intro env cur b env' x h
  cases h
  exact .inl rfl

theorem writes_casFn {a : α} {err : η → ε} (h : ∀ v, absent = .ok v → ∀ u, apply a v = .ok u → first u) :
    Writes codec first apply
      (casFn codec decode absent note fun v => (apply a v).mapError err) := by
  intro env cur b env' x hx
  obtain ⟨v, u, hv, hu, rfl, -⟩ := casFn_ok hx
  have hau : apply a v = .ok u := by
    cases hav : apply a v <;> simp_all [Except.mapError]
  refine .inr ⟨u, rfl, ?_⟩
  split_ifs at hv ⊢
  · exact ⟨a, v, hv, hau⟩
  · exact h v hv u hau

theorem writes_createIfAbsent (h : first v) :
    Writes codec first apply (createIfAbsent present (codec.enc v) : ChangeFunc σ ε) := by
  intro env cur b env' x hx
  obtain ⟨hv, rfl⟩ := createIfAbsent_ok hx
  exact .inr ⟨v, rfl, by simpa [hv] using h⟩

/-- Every call on the register writes it so. -/
def OnlyWrites (codec : Codec V) (first : V → Prop) (apply : α → V → Except η V) (reg : Bytes)
    (s : State σ ε) : Prop :=
  ∀ i c, s.calls i = some c → c.reg = reg → Writes codec first apply c.fn

/-- A call was there before, or has just been proposed. -/
theorem RoundInv.proposed_or_same (h : RoundInv s) (hs : Stepped s act s')
    (hc : s'.calls i = some c') : (∃ c, s.calls i = some c ∧ c.Same c') ∨
      ∃ node notAfter env, act = .propose i node c'.reg c'.fn notAfter env := by
  cases hs with
  | @turn _ j d ht =>
    by_cases hij : i = j
    · subst hij
      obtain rfl : d = c' := by simpa [State.update] using hc
      rcases (ht.ok h).2 with ⟨hn, -⟩ | ⟨e, he, hf⟩
      · cases ht with
        | propose node reg fn notAfter env => exact .inr ⟨node, notAfter, env, rfl⟩
        | _ => simp_all
      · exact .inl ⟨e, he, hf.toSame⟩
    · exact .inl ⟨c', by simpa [State.update, Function.update_of_ne hij] using hc, Same.refl c'⟩
  | @attempt j d v b hd =>
    by_cases hij : i = j
    · subst hij
      obtain rfl : d.broadcast v b (.prepare {}) = c' := by simpa [State.update] using hc
      exact .inl ⟨d, hd, rfl, rfl, rfl⟩
    · exact .inl ⟨c', by simpa [State.update, Function.update_of_ne hij] using hc, Same.refl c'⟩
  | _ => exact .inl ⟨c', hc, Same.refl c'⟩

theorem onlyWrites_run (h₀ : Initial s₀) (hf : Fixed vs s₀)
    (hw : ∀ i node fn notAfter env, .propose i node reg fn notAfter env ∈ as →
      Writes codec first apply fn) (hr : run step s₀ as = some s) :
    OnlyWrites codec first apply reg s := by
  have hmem : Along step (fun _ a => a ∈ as) s₀ as := along_of_forall s₀ fun a ha => ha
  refine (invariant_along (P := fun s => RoundInv s ∧ OnlyWrites codec first apply reg s)
    (fun s a s' h ha hs => ?_) as ⟨(roundInv_run h₀ hf (run_nil s₀)).1,
      fun i c hc => by simp [h₀.calls] at hc⟩ hmem hr).2
  have hs := step_stepped hs
  refine ⟨h.1.step hs, fun i c hc hreg => ?_⟩
  rcases h.1.proposed_or_same hs hc with ⟨d, hd, hsame⟩ | ⟨node, notAfter, env, rfl⟩
  · rw [hsame.fn]
    exact h.2 i d hd (hsame.reg.symm.trans hreg)
  · exact hw i node c.fn notAfter env (hreg ▸ ha)

theorem OnlyWrites.proposal (hw : OnlyWrites codec first apply reg s) (h : Inv vs s)
    (hq : q ∈ s.proposals) (hreg : q.reg = reg) :
    (q.value, q.hasValue) = (q.cur.value, q.cur.hasValue) ∨
      ∃ u, (q.value, q.hasValue) = (codec.enc u, true) ∧ if q.cur.hasValue then
        ∃ a v, codec.dec q.cur.value = some v ∧ apply a v = .ok u else first u := by
  obtain ⟨c, hc, hr, env, env', goal, hfn, hgoal, -⟩ := (h.proposal q hq).origin
  cases goal with
  | change value hasValue =>
    have hx := hw q.call c hc (hr.trans hreg) env q.cur q.ballot env' (value, hasValue) hfn
    rwa [show (value, hasValue) = (q.value, q.hasValue) from hgoal] at hx
  | reaccept err => exact .inl hgoal.symm

/-- A value proposed on a row that has one of the states of the writes on `v` is one too. -/
theorem OnlyWrites.state_of_row {as : List α} (hw : OnlyWrites codec first apply reg s)
    (h : Inv vs s) (hq : q ∈ s.proposals) (hreg : q.reg = reg)
    (hcur : (q.cur.value, q.cur.hasValue) = (codec.enc u, true)) (hu : u ∈ Log.states apply v as) :
    ∃ as' u', (q.value, q.hasValue) = (codec.enc u', true) ∧ u' ∈ Log.states apply v as' := by
  rcases hw.proposal h hq hreg with hsame | ⟨u', hx, hcase⟩
  · exact ⟨as, u, hsame.trans hcur, hu⟩
  · simp only [Prod.mk.injEq] at hcur
    rw [if_pos hcur.2, hcur.1] at hcase
    obtain ⟨a, w, hdec, happ⟩ := hcase
    rw [codec.dec_enc] at hdec
    cases hdec
    obtain ⟨as', has'⟩ := Log.mem_states_step hu happ
    exact ⟨as', u', hx, has'⟩

/-- Every value proposed on the register is a state of the writes on a first value. -/
theorem OnlyWrites.states (hw : OnlyWrites codec first apply reg s) (h : Inv vs s)
    (hq : q ∈ s.proposals) (hreg : q.reg = reg) (hv : q.hasValue = true) :
    ∃ v as u, first v ∧ q.value = codec.enc u ∧ u ∈ Log.states apply v as := by
  refine h.induction (P := fun x => x.2 = true →
    ∃ v as u, first v ∧ x.1 = codec.enc u ∧ u ∈ Log.states apply v as) (by simp)
    (fun q hq hreg ih hv => ?_) q hq hreg hv
  cases hcv : q.cur.hasValue with
  | true =>
    obtain ⟨v, as, u, hfirst, henc, hu⟩ := ih hcv
    obtain ⟨as', u', hx, hu'⟩ := hw.state_of_row h hq hreg (Prod.ext henc hcv) hu
    exact ⟨v, as', u', hfirst, congrArg Prod.fst hx, hu'⟩
  | false =>
    rcases hw.proposal h hq hreg with hsame | ⟨u, hx, hcase⟩
    · simp_all
    · rw [hcv] at hcase
      exact ⟨u, [], u, by simpa using hcase, congrArg Prod.fst hx, Log.self_mem_states ..⟩

/-- Of two chosen values the later is a state of the writes on the earlier. -/
theorem OnlyWrites.chosen_states (hw : OnlyWrites codec first apply reg s) (h : Inv vs s)
    (ha : Agreement vs s) (hc : Chosen vs s reg b (codec.enc u, true))
    (hc' : Chosen vs s reg b' x') (hle : b ≤ b') :
    ∃ as u', x' = (codec.enc u', true) ∧ u' ∈ Log.states apply u as := by
  obtain ⟨w, -, hv⟩ := hc'.voted
  obtain ⟨q, hq, hreg, rfl, rfl⟩ := h.voted_proposal hv
  refine ha.induction_above (P := fun x => ∃ as u', x = (codec.enc u', true) ∧
    u' ∈ Log.states apply u as) h hc ⟨[], u, rfl, Log.self_mem_states ..⟩
    (fun q hq hreg _ ih => ?_) q hq hreg hle
  obtain ⟨as, u', hx, hu'⟩ := ih
  exact hw.state_of_row h hq hreg hx hu'

end Dstore

import Dstore.Proofs.Once
import Dstore.Proofs.Register

/-!
# Success of a view change

A `CASView` whose accept round ended unknown settles the view register and takes a view with the
version it computed for its own. Where no other view change or `InitView` computed a view of that
version, the view it finds is the one it computed, and a `CASView` that returns no error has its
view chosen.
-/

namespace Dstore

open Machine

variable {views : Codec View} {change : View → Except CatalogErr (View × Bool)}
  {env env' : Vars} {cur : Row} {b : Ballot} {s s₀ : State Vars CatalogErr}
  {as : List (Action Vars CatalogErr)} {vs : List Voter} {i j : ℕ} {c d : Call Vars CatalogErr}
  {out settle : Outcome} {q : Proposal} {v : View}

/-- The proposal changes the row it was computed on. -/
def Written (q : Proposal) : Prop := (q.value, q.hasValue) ≠ (q.cur.value, q.cur.hasValue)

instance : Decidable (Written q) := inferInstanceAs (Decidable (_ ≠ _))

/-- The proposal is the change's view of the one it was computed on. -/
def Applies (views : Codec View) (change : View → Except CatalogErr (View × Bool)) (q : Proposal) :
    Prop :=
  q.hasValue = true ∧ ∃ pred nv bump, views.dec q.cur.value = some pred ∧
    change pred = .ok (nv, bump) ∧ q.value = views.enc (nextView pred nv bump)

theorem casViewFn_ok {x : Bytes × Bool}
    (h : casViewFn views change env cur b = (env', .ok x)) :
    ∃ pred nv bump, views.dec cur.value = some pred ∧ change pred = .ok (nv, bump) ∧
      x = (views.enc (nextView pred nv bump), true) ∧
      env'.out = some (nextView pred nv bump) := by
  obtain ⟨pred, u, hpred, hu, rfl, rfl⟩ := casFn_ok h
  split_ifs at hpred
  obtain ⟨⟨nv, bump⟩, hch, rfl⟩ : ∃ r, change pred = .ok r ∧ nextView pred r.1 r.2 = u := by
    cases hr : change pred <;> simp_all [Except.map]
  exact ⟨pred, nv, bump, hpred, hch, rfl, rfl⟩

theorem Inv.written_isChange (h : Inv vs s) (hq : q ∈ s.proposals) (hw : Written q) :
    q.isChange = true := by
  obtain ⟨c, -, -, env, env', goal, -, hgoal, hch⟩ := (h.proposal q hq).origin
  cases goal with
  | change value hasValue => exact hch.symm
  | reaccept err => exact absurd hgoal.symm hw

theorem Inv.written (h : Inv vs s) (hq : q ∈ s.proposals) (hval : q.hasValue = true) :
    ∃ q₀ ∈ s.proposals, q₀.reg = q.reg ∧ Written q₀ ∧ q₀.value = q.value := by
  refine h.induction (P := fun x => x.2 = true → ∃ q₀ ∈ s.proposals, q₀.reg = q.reg ∧
    Written q₀ ∧ q₀.value = x.1) (by simp) (fun p hp hreg ih hval => ?_) q hq rfl hval
  by_cases hw : Written p
  · exact ⟨p, hp, hreg, hw, rfl⟩
  · simp only [Written, ne_eq, not_not, Prod.mk.injEq] at hw
    obtain ⟨q₀, hq₀, hr₀, hw₀, hv₀⟩ := ih (hw.2.symm.trans hval)
    exact ⟨q₀, hq₀, hr₀, hw₀, hv₀.trans hw.1.symm⟩

theorem Inv.applies (h : Inv vs s) (hc : s.calls i = some c) (hfn : c.fn = casViewFn views change)
    (hq : q ∈ s.proposals) (hi : q.call = i) (hch : q.isChange = true) :
    Applies views change q := by
  obtain ⟨c', hc', -, env, env', goal, hcomp, hgoal, hch'⟩ := (h.proposal q hq).origin
  obtain rfl := Option.some.inj (hc.symm.trans (hi ▸ hc'))
  cases goal with
  | reaccept err =>
    rw [hch] at hch'
    cases hch'
  | change value hasValue =>
    rw [hfn] at hcomp
    obtain ⟨pred, nv, bump, hdec, hnv, hx, -⟩ := casViewFn_ok hcomp
    simp only [Goal.value] at hgoal
    rw [hgoal, Prod.mk.injEq] at hx
    exact ⟨hx.2, pred, nv, bump, hdec, hnv, hx.1⟩

/-- The view that a `CASView` with an unknown outcome compares with is the one it proposed at the
ballot of that outcome. -/
theorem Inv.unknown_out {n k : ℕ} (h : Inv vs s) (hc : s.calls i = some c)
    (hfn : c.fn = casViewFn views change)
    (hp : c.phase = .done out.1 (some (.round (.unknown n k)))) :
    ∃ p ∈ s.proposals, p.call = i ∧ p.ballot = out.1.ballot ∧ c.env.out = views.dec p.value := by
  have hok := h.call i c hc
  rw [CallOk, hp] at hok
  generalize hres : out.1 = res at hok
  cases hok with
  | unknown q hq hi hch hf =>
    obtain ⟨env, hcomp⟩ := hf
    rw [hfn] at hcomp
    obtain ⟨pred, nv, bump, -, -, hx, hout⟩ := casViewFn_ok hcomp
    simp only [Prod.mk.injEq] at hx
    exact ⟨q, hq, hi, rfl, by rw [hout, hx.1, views.dec_enc]⟩
  | failed e _ hu => exact absurd rfl (hu n k)

/-- Over every quiet run of a fixed voter set: where no other call computed a view of the version
that a `CASView` proposed at the ballot of its unknown outcome, a `CASView` that returns no error
returns a view that is chosen, and that is its change function's view of the one before. -/
theorem casView_chosen (h₀ : Initial s₀) (hf : Fixed vs s₀) (hq : ∀ a ∈ as, Quiet a)
    (hr : run step s₀ as = some s) (hc : s.calls i = some c) (hreg : c.reg = regView)
    (hfn : c.fn = casViewFn views change) (hp : c.phase = .done out.1 out.2)
    (hset : ∀ n k, out.2 = some (.round (.unknown n k)) → s.calls j = some d ∧
      d.fn = identity ∧ d.reg = regView ∧ d.phase = .done settle.1 settle.2)
    (hother : ∀ n k, out.2 = some (.round (.unknown n k)) →
      ∀ p ∈ s.proposals, p.call = i → p.ballot = out.1.ballot →
      ∀ q ∈ s.proposals, q.reg = regView → Written q → q.call ≠ i →
        ∀ u v, views.dec p.value = some u → views.dec q.value = some v → v.version ≠ u.version)
    (hok : casView views c.env.out out settle = (some v, none)) :
    ∃ q ∈ s.proposals, q.call = i ∧ q.isChange = true ∧ Applies views change q ∧
      views.dec q.value = some v ∧ ∃ b, Chosen vs s regView b (q.value, true) := by
  obtain ⟨h, -, -⟩ := inv_run_quiet h₀ hf hq hr
  unfold casView at hok
  split at hok
  · rename_i herr
    rw [herr] at hp
    obtain ⟨q, hq, hi, hch, hr, hres, -, hchosen⟩ := h.toRoundInv.success h.voters hc hp
    have happ := h.applies hc hfn hq hi hch
    rw [hres] at hok
    split at hok
    · simp at hok
    · rename_i v' hdec
      cases hok
      rw [hr, hreg, happ.1] at hchosen
      exact ⟨q, hq, hi, hch, happ, hdec, q.ballot, hchosen⟩
  · rename_i n k herr
    obtain ⟨hd, -, hdreg, hdp⟩ := hset n k herr
    obtain ⟨p₀, hp₀, hi₀, hb₀, hout⟩ := h.unknown_out hc hfn (herr ▸ hp)
    split at hok
    · simp at hok
    · rename_i hnone
      rw [hnone] at hdp
      obtain ⟨p, hp, -, -, hpr, hres, -, hchosen⟩ := h.toRoundInv.success h.voters hd hdp
      rw [hres] at hok
      split at hok
      · rename_i v' hdec
        split_ifs at hok with hver
        · cases hok
          split_ifs at hdec with hval
          change p.hasValue = true at hval
          obtain ⟨q, hq, hqr, hw, hqv⟩ := h.written hp hval
          have hqreg : q.reg = regView := hqr.trans (hpr.trans hdreg)
          have hi : q.call = i := by
            by_contra hne
            obtain ⟨u, hu, hvu⟩ := Option.map_eq_some_iff.1 hver.symm
            exact hother n k herr p₀ hp₀ hi₀ hb₀ q hq hqreg hw hne u v (hout ▸ hu) (hqv ▸ hdec)
              hvu.symm
          rw [hpr, hdreg, hval, ← hqv] at hchosen
          have hch := h.written_isChange hq hw
          exact ⟨q, hq, hi, hch, h.applies hc hfn hq hi hch, hqv ▸ hdec, p.ballot, hchosen⟩
        · simp at hok
      · simp at hok
  · simp at hok

namespace Trio

/-- A change of the nodes. -/
def setNodes (ns : List NodeID) : View → Except CatalogErr (View × Bool) := fun v =>
  .ok ({ v with nodes := ns }, false)

def x₀ : Bytes := viewCodec.enc view

/-- The view after the change. -/
def xNodes (ns : List NodeID) : Bytes := viewCodec.enc { view with version := 2, nodes := ns }

/-- A change that reaches one voter only. -/
def unknownChange : List (Action Vars CatalogErr) :=
  [.propose 1 1 regView (initViewFn viewCodec view) 0 {},
    .propose 2 1 regView (casViewFn viewCodec (setNodes [5])) 0 {}] ++
  prepare 1 regView ⟨1, 1⟩ [(1, {}), (2, {})] ++ accept 1 regView ⟨1, 1⟩ x₀ [1, 2] ++
  prepare 2 regView ⟨2, 1⟩ [(1, ⟨⟨1, 1⟩, x₀, true⟩), (2, ⟨⟨1, 1⟩, x₀, true⟩)] ++
  accept 2 regView ⟨2, 1⟩ (xNodes [5]) [1] ++ [.fail 2 2 .first, .fail 2 3 .first, .close 2]

/-- A `Settle` that finds the change, and decides it. -/
def settledOwn : List (Action Vars CatalogErr) :=
  unknownChange ++ [.propose 4 1 regView identity 0 {}] ++
  prepare 4 regView ⟨4, 1⟩ [(1, ⟨⟨2, 1⟩, xNodes [5], true⟩), (2, ⟨⟨1, 1⟩, x₀, true⟩)] ++
  accept 4 regView ⟨4, 1⟩ (xNodes [5]) [1, 2]

/-- A `Settle` that finds another one. -/
def settledOther : List (Action Vars CatalogErr) :=
  unknownChange ++ [.propose 3 2 regView (casViewFn viewCodec (setNodes [6])) 0 {},
    .propose 4 1 regView identity 0 {}] ++
  prepare 3 regView ⟨3, 2⟩ [(2, ⟨⟨1, 1⟩, x₀, true⟩), (3, {})] ++
  accept 3 regView ⟨3, 2⟩ (xNodes [6]) [2, 3] ++
  prepare 4 regView ⟨4, 1⟩ [(2, ⟨⟨3, 2⟩, xNodes [6], true⟩), (3, ⟨⟨3, 2⟩, xNodes [6], true⟩)] ++
  accept 4 regView ⟨4, 1⟩ (xNodes [6]) [2, 3]

/-- What the change has returned. -/
def unknownOut : Outcome := (⟨⟨2, 1⟩, xNodes [5], true⟩, some (.round (.unknown 1 2)))

/-- What the `Settle` has returned. -/
def settleOut (ns : List NodeID) : Outcome := (⟨⟨4, 1⟩, xNodes ns, true⟩, none)

end Trio

theorem casView_chosen_settledOwn :
    ∃ s, run step (Trio.start Vars CatalogErr) Trio.settledOwn = some s ∧
      ∃ q ∈ s.proposals, q.call = 2 ∧ Applies viewCodec (Trio.setNodes [5]) q ∧
        ∃ b, Chosen Trio.view.voters s regView b (q.value, true) := by
  obtain ⟨s, hs, hother, hp, hdp⟩ :
      ∃ s ∈ run step (Trio.start Vars CatalogErr) Trio.settledOwn,
        ((∀ q ∈ s.proposals, Written q → q.call ≠ 2 → q.value = Trio.x₀) ∧
          ∀ p ∈ s.proposals, p.call = 2 → p.value = Trio.xNodes [5]) ∧
        (∀ c ∈ s.calls 2, c.phase = .done Trio.unknownOut.1 Trio.unknownOut.2 ∧
          c.env.out = some { Trio.view with version := 2, nodes := [5] }) ∧
        ∀ d ∈ s.calls 4, d.phase = .done (Trio.settleOut [5]).1 (Trio.settleOut [5]).2 := by
    decide +kernel
  have h₀ := Trio.start_initial Vars CatalogErr
  have hf := Trio.start_fixed Vars CatalogErr
  have hm : .propose 2 1 regView (casViewFn viewCodec (Trio.setNodes [5])) 0 {} ∈
      Trio.settledOwn := by simp [Trio.settledOwn, Trio.unknownChange]
  have hm' : .propose 4 1 regView identity 0 {} ∈ Trio.settledOwn := by simp [Trio.settledOwn]
  obtain ⟨c, hc, hreg, hfn⟩ := proposed_run h₀ hf hs hm
  obtain ⟨d, hd, hdreg, hdfn⟩ := proposed_run h₀ hf hs hm'
  have hout := (hp c hc).2
  obtain ⟨q, hq, hi, -, happ, -, hch⟩ := casView_chosen h₀ hf (by decide +kernel) hs hc hreg hfn
    (hp c hc).1 (fun _ _ _ => ⟨hd, hdfn, hdreg, hdp d hd⟩)
    (fun _ _ _ p hp hi _ q hq _ hw hne u v hu hv => by
      rw [hother.1 q hq hw hne, Trio.x₀, viewCodec.dec_enc] at hv
      rw [hother.2 p hp hi, Trio.xNodes, viewCodec.dec_enc] at hu
      cases hv
      cases hu
      decide)
    (show casView viewCodec c.env.out Trio.unknownOut (Trio.settleOut [5]) =
      (some { Trio.view with version := 2, nodes := [5] }, none) by rw [hout]; decide +kernel)
  exact ⟨s, hs, q, hq, hi, happ, hch⟩

/-- A view change reports success with a view that another change computed; its own is not
chosen. -/
theorem casView_takes_other :
    ∃ s ∈ run step (Trio.start Vars CatalogErr) Trio.settledOther,
      (∃ c ∈ s.calls 2, c.phase = .done Trio.unknownOut.1 Trio.unknownOut.2 ∧
        (casView viewCodec c.env.out Trio.unknownOut (Trio.settleOut [6])).2 = none) ∧
      (∃ d ∈ s.calls 4, d.phase = .done (Trio.settleOut [6]).1 (Trio.settleOut [6]).2) ∧
      ∀ q ∈ s.proposals, Chosen Trio.view.voters s q.reg q.ballot (q.value, q.hasValue) →
        q.value ≠ Trio.xNodes [5] := by
  decide +kernel

end Dstore

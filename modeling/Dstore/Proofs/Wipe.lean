import Dstore.Catalog
import Dstore.Proofs.Agreement

/-!
# Acceptors that lost their database

An acceptor that lost its database refuses to report; but it still accepts, and has forgotten what
it promised. Where it is never handed an accept below a ballot it had promised, agreement stands.
Where it is, an older proposal may be accepted after a newer one was chosen.
-/

namespace Dstore

open Machine

variable {σ ε : Type} {s s₀ : State σ ε} {as : List (Action σ ε)} {vs : List Voter} {reg : Bytes}
  {b : Ballot} {i j : ℕ} {c d : Call σ ε} {q : Proposal} {res res' : Result} {err err' : ε}
  {x x' : Bytes}

theorem Inv.created (h : Inv vs s) (hc : s.calls i = some c) (hfn : c.fn = createIfAbsent err x)
    (hp : c.phase = .done res none) : ∃ q ∈ s.proposals, q.call = i ∧ q.reg = c.reg ∧
      q.cur.hasValue = false ∧ Chosen vs s q.reg q.ballot (q.value, true) := by
  obtain ⟨q, hq, hi, -, hreg, -, ⟨env, hcomp⟩, hch⟩ := h.toRoundInv.success h.voters hc hp
  rw [hfn, createIfAbsent] at hcomp
  cases hcur : q.cur.hasValue with
  | true => simp [Goal.outcome, hcur] at hcomp
  | false =>
    have hv : q.hasValue = true := by simp_all [Goal.outcome]
    exact ⟨q, hq, hi, hreg, hcur, hv ▸ hch⟩

/-- No proposal takes the register's value away. -/
def Undeleted (s : State σ ε) (reg : Bytes) : Prop :=
  ∀ q ∈ s.proposals, q.reg = reg → q.cur.hasValue = true → q.hasValue = true

theorem Agreement.hasValue (ha : Agreement vs s) (h : Inv vs s) (hu : Undeleted s reg)
    (hc : Chosen vs s reg b (x, true)) (hq : q ∈ s.proposals) (hr : q.reg = reg)
    (hlt : b < q.ballot) : q.cur.hasValue = true := by
  have hle := ha.law reg b _ hc q hq hr hlt
  obtain ⟨w, -, hv⟩ := hc.voted
  have hne : q.cur.accepted ≠ ⊥ := fun hz => h.voted_ne_bot hv (le_bot_iff.1 (hz ▸ hle))
  obtain ⟨p, hp, h1, h2, -, h4⟩ := (ha.computed q hq).2.1 hne
  rw [← h4]
  exact ha.induction_above (P := fun x => x.2 = true) h hc rfl
    (fun q hq hr _ hcur => hu q hq hr hcur) p hp (h1.trans hr) (h2 ▸ hle)

theorem Inv.create_once (h : Inv vs s) (ha : Agreement vs s) (hu : Undeleted s reg)
    (hc : s.calls i = some c) (hd : s.calls j = some d) (hrc : c.reg = reg) (hrd : d.reg = reg)
    (hfc : c.fn = createIfAbsent err x) (hfd : d.fn = createIfAbsent err' x')
    (hp : c.phase = .done res none) (hp' : d.phase = .done res' none) : i = j := by
  obtain ⟨q, hq, rfl, hr, hcur, hch⟩ := h.created hc hfc hp
  obtain ⟨q', hq', rfl, hr', hcur', hch'⟩ := h.created hd hfd hp'
  rw [hr, hrc] at hch
  rw [hr', hrd] at hch'
  rcases lt_trichotomy q.ballot q'.ballot with hlt | heq | hlt
  · have := ha.hasValue h hu hch hq' (hr'.trans hrd) hlt
    simp [this] at hcur'
  · rw [h.unique q hq q' hq' heq]
  · have := ha.hasValue h hu hch' hq (hr.trans hrc) hlt
    simp [this] at hcur

/-- Agreement over every run in which voters lose their databases, any number of them and at any
moment, where none is handed an accept below a ballot it had promised before; and one create of a
register that nobody deletes succeeds. -/
theorem agreement_of_honest_run (h₀ : Initial s₀) (hf : Fixed vs s₀)
    (hu : ∀ a ∈ as, Unpurged a) (hb : Along step Honest s₀ as) (hr : run step s₀ as = some s) :
    Agreement vs s ∧ ∀ reg, Undeleted s reg → ∀ i j c d err err' x x' res res',
      s.calls i = some c → s.calls j = some d → c.reg = reg → d.reg = reg →
      c.fn = createIfAbsent err x → d.fn = createIfAbsent err' x' →
      c.phase = .done res none → d.phase = .done res' none → i = j := by
  have h := inv_run h₀ hf hb hr
  have ha := h.agreement (noPurge_run h₀ hu hr)
  exact ⟨ha, fun reg hu i j c d err err' x x' res res' hc hd hrc hrd hfc hfd hp hp' =>
    h.create_once ha hu hc hd hrc hrd hfc hfd hp hp'⟩

namespace Trio

/-- Two creates of one register. The first prepares at voters 1 and 2; the second prepares and is
accepted at voters 2 and 3; voter 2 loses its database. -/
def lateCreate : List (Action Unit Unit) :=
  [.propose 1 1 [7] (createIfAbsent () [1]) 0 (), .propose 2 2 [7] (createIfAbsent () [2]) 0 ()] ++
  prepare 1 [7] ⟨1, 1⟩ [(1, {}), (2, {})] ++ prepare 2 [7] ⟨2, 2⟩ [(2, {}), (3, {})] ++
  accept 2 [7] ⟨2, 2⟩ [2] [2, 3] ++ [.wipe 2]

/-- The second voter accepts after it has lost its promise. -/
def forgotten : List (Action Unit Unit) :=
  lateCreate ++ accept 1 [7] ⟨1, 1⟩ [1] [1] ++
  [.deliver 2 ⟨1, 1, .accept [7] ⟨1, 1⟩ [1] true 0⟩ 0,
    .hear 1 2 .first ⟨0, 0, .err .needView "no view installed" none⟩,
    .deliver 2 ⟨1, 1, .install view⟩ 0, .hear 1 2 .installing ⟨1, 1, .installed⟩,
    .deliver 2 ⟨1, 1, .accept [7] ⟨1, 1⟩ [1] true 0⟩ 0, .hear 1 2 .second ⟨1, 1, .accepted⟩]

/-- A voter that has kept its promise refuses. -/
def refused : List (Action Unit Unit) :=
  lateCreate ++ accept 1 [7] ⟨1, 1⟩ [1] [1] ++
  [.deliver 3 ⟨1, 1, .accept [7] ⟨1, 1⟩ [1] true 0⟩ 0, .hear 1 3 .first ⟨1, 1, .conflict ⟨2, 2⟩⟩]

end Trio

theorem agreement_of_honest_run_refused :
    ∃ s, run step (Trio.start Unit Unit) Trio.refused = some s ∧ s.lost = [2] ∧
      Agreement Trio.view.voters s := by
  obtain ⟨s, hs, hl⟩ : ∃ s ∈ run step (Trio.start Unit Unit) Trio.refused, s.lost = [2] := by
    decide +kernel
  exact ⟨s, hs, hl, (agreement_of_honest_run (Trio.start_initial _ _) (Trio.start_fixed _ _)
    (by decide +kernel) (by decide +kernel) hs).1⟩

/-- One voter of three loses its database, and both creates report success, the later computed on
a register without a value though the earlier ballot was chosen. -/
theorem create_twice_after_wipe : ∃ s ∈ run step (Trio.start Unit Unit) Trio.forgotten,
    s.lost = [2] ∧ (∃ c ∈ s.calls 1, c.phase = .done ⟨⟨1, 1⟩, [1], true⟩ none) ∧
    (∃ c ∈ s.calls 2, c.phase = .done ⟨⟨2, 2⟩, [2], true⟩ none) ∧
    Chosen Trio.view.voters s [7] ⟨1, 1⟩ ([1], true) ∧
    Chosen Trio.view.voters s [7] ⟨2, 2⟩ ([2], true) ∧
    ∃ q ∈ s.proposals, q.ballot = ⟨2, 2⟩ ∧ q.cur.accepted = ⊥ := by
  decide +kernel

end Dstore

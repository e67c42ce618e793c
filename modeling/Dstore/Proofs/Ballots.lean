import Dstore.Ballots

/-!
# Counters are handed out once

The end of the block is the last acknowledged mark, less than a block's length ahead of the next
counter. So a bump never takes the mark back, and a block reserved after a crash begins behind every
counter of the blocks before, as long as the mark can be read.
-/

namespace Dstore.Ballots

open Durable Machine

variable {n n' : Node} {handed : List ℕ} {s s' : State} {as : List Action} {a : Action} {c : Call}
  {i k : ℕ} {ok : Bool} {w : Outcome}

/-- The bound below which counters are taken to stay. -/
def bound : ℕ := 2 ^ 64 - 2000

/-- The block ends at the acknowledged mark, and everything handed out is before what is to come. -/
structure NodeOk (handed : List ℕ) (n : Node) : Prop where
  marks : n.mark.All (n.mark.acked ≤ ·)
  past : ∀ k ∈ handed, k ≤ n.mark.acked
  block : n.ballotNext ≠ 0 → n.ballotNext ≤ n.ballotMax ∧ n.ballotMax = n.mark.acked ∧
    n.ballotMax < n.ballotNext + ballotBlock ∧ ∀ k ∈ handed, k < n.ballotNext

theorem NodeOk.failed (h : NodeOk handed n) {v : ℕ} (hv : n.mark.acked ≤ v)
    (hw : (n.mark.set v w).2 = false) : NodeOk handed { n with mark := (n.mark.set v w).1 } := by
  have hacked := Cell.acked_of_failed hw
  refine ⟨?_, ?_, ?_⟩
  · rw [hacked]
    exact h.marks.set hv w
  · rw [hacked]
    exact h.past
  · rw [hacked]
    exact h.block

theorem nodeOk_reserved {cur next : ℕ} (hcur : ∀ k ∈ handed, k < next) (hlo : cur < next)
    (hhi : next ≤ cur + ballotBlock) :
    NodeOk handed ⟨⟨cur + ballotBlock, cur + ballotBlock, []⟩, next, cur + ballotBlock⟩ := by
  refine ⟨⟨le_rfl, le_rfl, by simp⟩, fun k hk => ?_, fun _ => ⟨hhi, rfl, ?_, hcur⟩⟩
  · exact (hcur k hk).le.trans hhi
  · show cur + ballotBlock < next + ballotBlock
    omega

/-- A read of the mark, where there is one, succeeds. -/
def Node.Reads (n : Node) (ok : Bool) : Prop := n.usedUp = true → ok = true

instance (n : Node) (ok : Bool) : Decidable (n.Reads ok) :=
  inferInstanceAs (Decidable (_ → _))

theorem Node.Reads.get_mark (h : n.Reads ok) (hu : n.usedUp = true) :
    (n.mark.get ok).getD 0 = n.mark.value := by
  simp [Cell.get, h hu]

theorem nextBallot_failed (h : NodeOk handed n) (hb : n.mark.value < bound) (hok : n.Reads ok)
    (hn : n.nextBallot ok w = (n', none)) :
    NodeOk handed n' ∧ n'.ballotNext = n.ballotNext ∧ w ≠ .acked := by
  have hmod : (n.mark.value + ballotBlock) % 2 ^ 64 = n.mark.value + ballotBlock :=
    Nat.mod_eq_of_lt (by simp only [bound, ballotBlock] at *; omega)
  have hv : n.mark.acked ≤ n.mark.value + ballotBlock := h.marks.value.trans (Nat.le_add_right _ _)
  by_cases hres : n.usedUp = true
  · simp only [Node.nextBallot, hres, if_true, hok.get_mark hres, hmod] at hn
    split at hn
    · rename_i mark hset
      cases hn
      have h1 : (n.mark.set (n.mark.value + ballotBlock) w).1 = mark := by rw [hset]
      have h2 : (n.mark.set (n.mark.value + ballotBlock) w).2 = false := by rw [hset]
      refine ⟨h1 ▸ h.failed hv h2, rfl, ?_⟩
      rintro rfl
      cases h2
    · cases hn
  · simp [Node.nextBallot, hres] at hn

/-- A ballot handed out is above all before, and below the counter it leaves. -/
theorem nextBallot_handed (h : NodeOk handed n) (hb : n.mark.value < bound) (hok : n.Reads ok)
    (hn : n.nextBallot ok w = (n', some k)) :
    NodeOk (k :: handed) n' ∧ (∀ j ∈ handed, j < k) ∧ n.ballotNext ≤ k ∧ k < n'.ballotNext := by
  simp only [bound] at hb
  have hacked := h.marks.value
  by_cases hres : n.usedUp = true
  · -- a new block behind the mark
    have hmod : (n.mark.value + ballotBlock) % 2 ^ 64 = n.mark.value + ballotBlock :=
      Nat.mod_eq_of_lt (by simp only [ballotBlock]; omega)
    have hmod₁ : (n.mark.value + 1) % 2 ^ 64 = n.mark.value + 1 := Nat.mod_eq_of_lt (by omega)
    have hmod₂ : (n.mark.value + 1 + 1) % 2 ^ 64 = n.mark.value + 1 + 1 :=
      Nat.mod_eq_of_lt (by omega)
    simp only [Node.nextBallot, hres, if_true, hok.get_mark hres, hmod, hmod₁, hmod₂] at hn
    split at hn
    · cases hn
    · rename_i mark hset
      cases hn
      obtain rfl : mark = ⟨n.mark.value + ballotBlock, n.mark.value + ballotBlock, []⟩ := by
        have := Cell.set_acked (c := n.mark) (v := n.mark.value + ballotBlock) (w := w)
          (by rw [hset])
        rwa [hset] at this
      have hpast : ∀ j ∈ handed, j < n.mark.value + 1 := fun j hj =>
        Nat.lt_succ_of_le ((h.past j hj).trans hacked)
      have hnext : n.ballotNext ≤ n.mark.value + 1 := by
        by_cases h0 : n.ballotNext = 0
        · omega
        · obtain ⟨hle, hmax, -⟩ := h.block h0
          omega
      refine ⟨nodeOk_reserved ?_ (by omega) (by simp only [ballotBlock]; omega), hpast, hnext,
        Nat.lt_succ_self _⟩
      intro j hj
      rcases List.mem_cons.1 hj with rfl | hj
      · exact Nat.lt_succ_self _
      · exact (hpast j hj).trans (Nat.lt_succ_self _)
  · -- the next one of the block
    simp only [Node.nextBallot, if_neg hres] at hn
    simp only [Node.usedUp, decide_eq_true_eq, not_or, not_le] at hres
    obtain ⟨h0, hlt⟩ := hres
    obtain ⟨hle, hmax, hlen, hpast⟩ := h.block h0
    have hmod : (n.ballotNext + 1) % 2 ^ 64 = n.ballotNext + 1 := Nat.mod_eq_of_lt (by omega)
    rw [hmod] at hn
    cases hn
    have hlen' : n.ballotMax < n.ballotNext + 1 + ballotBlock := by omega
    refine ⟨⟨h.marks, ?_, fun _ => ⟨hlt, hmax, hlen', ?_⟩⟩, hpast, le_rfl, Nat.lt_succ_self _⟩
    · intro j hj
      rcases List.mem_cons.1 hj with rfl | hj
      · exact hle.trans hmax.le
      · exact h.past j hj
    · intro j hj
      rcases List.mem_cons.1 hj with rfl | hj
      · exact Nat.lt_succ_self _
      · exact (hpast j hj).trans (Nat.lt_succ_self _)

theorem bumpBallot_ok (h : NodeOk handed n) {m : ℕ} (hm : m < bound) (h0 : n.ballotNext ≠ 0) :
    NodeOk handed (n.bumpBallot m w).1 ∧ n.ballotNext ≤ (n.bumpBallot m w).1.ballotNext ∧
      ((n.bumpBallot m w).2 = true → m < (n.bumpBallot m w).1.ballotNext) ∧
      (w = .acked → (n.bumpBallot m w).2 = true) := by
  obtain ⟨hle, hmax, hlen, hpast⟩ := h.block h0
  simp only [bound] at hm
  by_cases hlt : m < n.ballotNext
  · have heq : n.bumpBallot m w = (n, true) := if_pos hlt
    rw [heq]
    exact ⟨h, le_rfl, fun _ => hlt, fun _ => rfl⟩
  have hmod : (m + ballotBlock) % 2 ^ 64 = m + ballotBlock :=
    Nat.mod_eq_of_lt (by simp only [ballotBlock]; omega)
  have hmod₁ : (m + 1) % 2 ^ 64 = m + 1 := Nat.mod_eq_of_lt (by omega)
  unfold Node.bumpBallot
  simp only [hlt, if_false, hmod, hmod₁]
  split
  · rename_i mark hset
    have h1 : (n.mark.set (m + ballotBlock) w).1 = mark := by rw [hset]
    have h2 : (n.mark.set (m + ballotBlock) w).2 = false := by rw [hset]
    refine ⟨h1 ▸ h.failed (by omega) h2, le_rfl, by simp, ?_⟩
    rintro rfl
    cases h2
  · rename_i mark hset
    obtain rfl : mark = ⟨m + ballotBlock, m + ballotBlock, []⟩ := by
      have := Cell.set_acked (c := n.mark) (v := m + ballotBlock) (w := w) (by rw [hset])
      rwa [hset] at this
    refine ⟨nodeOk_reserved (fun j hj => ?_) (by omega) (by simp only [ballotBlock]; omega), ?_,
      fun _ => Nat.lt_succ_self _, fun _ => rfl⟩
    · have := hpast j hj
      omega
    · show n.ballotNext ≤ m + 1
      omega

/-- A call asks at most twice: before the second time its counter has been cleared. -/
structure CallOk (next : ℕ) (c : Call) : Prop where
  above : c.above.counter < bound
  asked : c.asked ≤ 2
  first : c.stage = .next → c.asked = 0 ∨ c.asked = 1 ∧ c.above.counter < next
  bump : c.stage = .bump → c.asked = 1 ∧ next ≠ 0
  returned : ∀ nb, c.stage = .returned nb → c.above < nb

theorem CallOk.mono {next next' : ℕ} (h : CallOk next c) (hle : next ≤ next') :
    CallOk next' c where
  above := h.above
  asked := h.asked
  first hs := (h.first hs).imp_right fun ⟨h1, h2⟩ => ⟨h1, h2.trans_le hle⟩
  bump hs := ⟨(h.bump hs).1, fun h0 => (h.bump hs).2 (by omega)⟩
  returned := h.returned

theorem CallOk.fails {next : ℕ} (h : CallOk next c) {m : ℕ} (hm : m ≤ 2) :
    CallOk next { c with stage := .failed, asked := m } where
  above := h.above
  asked := hm
  first := nofun
  bump := nofun
  returned := nofun

theorem got_cases (c : Call) (nb : Ballot) :
    c.above < nb ∧ c.got nb = .returned nb ∨ nb.counter ≤ c.above.counter ∧ c.got nb = .bump := by
  unfold Call.got
  split_ifs with hgt hle
  · exact .inl ⟨Ballot.compare_eq_gt.1 hgt, rfl⟩
  · exact .inr ⟨hle, rfl⟩
  · exact absurd (Ballot.compare_eq_gt.2 (Ballot.lt_iff.2 (.inl (not_le.1 hle)))) hgt

theorem CallOk.served {next next' : ℕ} (h : CallOk next c) (hs : c.stage = .next) {p : NodeID}
    (hk : next ≤ k) (hk' : k < next') :
    CallOk next' { c with stage := c.got ⟨k, p⟩, asked := c.asked + 1 } ∧
      (c.asked ≠ 0 → c.got ⟨k, p⟩ = .returned ⟨k, p⟩) := by
  have hasked : c.asked ≤ 1 := by
    rcases h.first hs with h0 | ⟨h1, -⟩ <;> omega
  rcases got_cases c ⟨k, p⟩ with ⟨hlt, hgot⟩ | ⟨hle, hgot⟩
  · rw [hgot]
    refine ⟨⟨h.above, Nat.succ_le_succ hasked, nofun, nofun, fun nb hnb => ?_⟩, fun _ => rfl⟩
    cases hnb
    exact hlt
  · have h0 : c.asked = 0 := by
      rcases h.first hs with h0 | ⟨-, hlt⟩
      · exact h0
      · exact absurd (hlt.trans_le (hk.trans hle)) (lt_irrefl _)
    rw [hgot]
    refine ⟨⟨h.above, Nat.succ_le_succ hasked, nofun, fun _ => ⟨by simp [h0], ?_⟩, nofun⟩,
      fun hne => absurd h0 hne⟩
    omega

/-- The ballots handed out descend from the last, and lie below the counter. -/
structure Inv (s : State) : Prop where
  node : NodeOk s.handed s.node
  sorted : s.handed.Pairwise (· > ·)
  calls : ∀ i c, s.calls i = some c → CallOk s.node.ballotNext c

/-- The counters are below the bound before the step. -/
def Below (s : State) : Action → Prop
  | .ballotAbove _ b => s.node.mark.value < bound ∧ b.counter < bound
  | _ => s.node.mark.value < bound

instance decidableBelow (s : State) : ∀ a, Decidable (Below s a)
  | .ballotAbove _ b => inferInstanceAs (Decidable (s.node.mark.value < bound ∧ b.counter < bound))
  | .advance _ _ _ | .restart _ => inferInstanceAs (Decidable (s.node.mark.value < bound))

/-- The step does not miss the mark: a read that it makes succeeds. -/
def Readable (s : State) : Action → Prop
  | .advance _ ok _ => s.node.Reads ok
  | _ => True

instance decidableReadable (s : State) : ∀ a, Decidable (Readable s a)
  | .advance _ ok _ => inferInstanceAs (Decidable (s.node.Reads ok))
  | .ballotAbove _ _ | .restart _ => .isTrue trivial

theorem Inv.put {node : Node} {handed : List ℕ} (h : Inv s) (hn : NodeOk handed node)
    (hs : handed.Pairwise (· > ·)) (hle : s.node.ballotNext ≤ node.ballotNext)
    (hc : CallOk node.ballotNext c) : Inv ({ s with node, handed }.put i c) where
  node := hn
  sorted := hs
  calls j c' hc' := by
    by_cases hj : j = i
    · subst hj
      simp only [State.put, Function.update_self, Option.some.injEq] at hc'
      exact hc' ▸ hc
    · simp only [State.put, Function.update_of_ne hj] at hc'
      exact (h.calls j c' hc').mono hle

/-- A step keeps the invariant, as long as the mark can be read and does not overflow. -/
theorem Inv.step (h : Inv s) (hb : Below s a) (hok : Readable s a) (hs : step s a = some s') :
    Inv s' := by
  cases a with
  | ballotAbove i b =>
    simp only [Ballots.step] at hs
    split at hs
    · cases hs
    · cases hs
      exact h.put h.node h.sorted le_rfl ⟨hb.2, by simp, by simp, nofun, nofun⟩
  | advance i ok w =>
    simp only [Ballots.step] at hs
    split at hs
    · cases hs
    rename_i c hc
    have hcall := h.calls i c hc
    split at hs
    · rename_i hstage
      have hasked : c.asked + 1 ≤ 2 := by
        rcases hcall.first hstage with h0 | ⟨h1, -⟩ <;> omega
      split at hs
      · rename_i node hn
        obtain ⟨hok, hnext, -⟩ := nextBallot_failed h.node hb hok hn
        cases hs
        exact h.put hok h.sorted hnext.ge ((hcall.mono hnext.ge).fails hasked)
      · rename_i node k hn
        obtain ⟨hok, hpast, hlo, hhi⟩ := nextBallot_handed h.node hb hok hn
        cases hs
        exact h.put hok (List.pairwise_cons.2 ⟨hpast, h.sorted⟩) (hlo.trans hhi.le)
          (hcall.served hstage hlo hhi).1
    · rename_i hstage
      obtain ⟨hasked, h0⟩ := hcall.bump hstage
      obtain ⟨hok, hle, hlt, -⟩ := bumpBallot_ok (w := w) h.node hcall.above h0
      cases hs
      refine h.put hok h.sorted hle ?_
      split_ifs with hw
      · exact ⟨hcall.above, hcall.asked, fun _ => .inr ⟨hasked, hlt hw⟩, nofun, nofun⟩
      · exact (hcall.mono hle).fails hcall.asked
    · cases hs
  | restart v =>
    obtain ⟨mark, hm, rfl⟩ := Option.map_eq_some_iff.1 hs
    obtain ⟨hv, rfl⟩ := h.node.marks.restart hm
    exact ⟨⟨⟨le_rfl, le_rfl, by simp⟩, fun k hk => (h.node.past k hk).trans hv,
      fun h0 => absurd rfl h0⟩, h.sorted, by simp⟩

/-- A node that has never handed out a ballot. -/
def fresh (self : NodeID) : State := { self }

theorem inv_fresh (self : NodeID) : Inv (fresh self) :=
  ⟨⟨⟨le_rfl, le_rfl, by simp [fresh]⟩, by simp [fresh], fun h => absurd rfl h⟩, by simp [fresh],
    by simp [fresh]⟩

theorem inv_run {self : NodeID}
    (hb : Along step (fun s a => Below s a ∧ Readable s a) (fresh self) as)
    (hr : run step (fresh self) as = some s) : Inv s :=
  invariant_along (fun _ _ _ h hb hs => h.step hb.1 hb.2 hs) as (inv_fresh self) hb hr

/-- How many steps the call has left, at most. -/
def Call.left (c : Call) : ℕ :=
  match c.stage with
  | .next => if c.asked = 0 then 3 else 1
  | .bump => 2
  | _ => 0

/-- A call that is not done takes a step, whatever others have done, and then needs fewer; it fails
only where a write does. -/
theorem advance_progress (h : Inv s) (hb : s.node.mark.value < bound) (hc : s.calls i = some c)
    (hleft : c.left ≠ 0) (hok : s.node.Reads ok) (w : Outcome) :
    ∃ s' c', step s (.advance i ok w) = some s' ∧ s'.calls i = some c' ∧ c'.above = c.above ∧
      c'.left < c.left ∧ (w = .acked → c'.stage ≠ .failed) := by
  have hcall := h.calls i c hc
  rcases hstage : c.stage with _ | _ | nb | _
  · rcases hn : s.node.nextBallot ok w with ⟨node, _ | k⟩
    · refine ⟨_, { c with stage := .failed, asked := c.asked + 1 },
        by simp only [step, hc, hstage, hn]; rfl, Function.update_self .., rfl,
        Nat.pos_of_ne_zero hleft, fun hw => ?_⟩
      exact absurd hw (nextBallot_failed h.node hb hok hn).2.2
    · obtain ⟨-, -, hlo, hhi⟩ := nextBallot_handed h.node hb hok hn
      refine ⟨_, { c with stage := c.got ⟨k, s.self⟩, asked := c.asked + 1 },
        by simp only [step, hc, hstage, hn]; rfl, Function.update_self .., rfl, ?_, ?_⟩
      · have hsecond := (hcall.served hstage hlo hhi (p := s.self)).2
        rcases got_cases c ⟨k, s.self⟩ with ⟨-, hgot⟩ | ⟨-, hgot⟩
        · simp only [Call.left, hgot]
          exact Nat.pos_of_ne_zero hleft
        · have h0 : c.asked = 0 := by
            by_contra hne
            rw [hsecond hne] at hgot
            cases hgot
          simp [Call.left, hgot, hstage, h0]
      · rcases got_cases c ⟨k, s.self⟩ with ⟨-, hgot⟩ | ⟨-, hgot⟩ <;> simp [hgot]
  · obtain ⟨hasked, h0⟩ := hcall.bump hstage
    have hw := (bumpBallot_ok (w := w) h.node hcall.above h0).2.2.2
    refine ⟨_, { c with stage := if (s.node.bumpBallot c.above.counter w).2 then .next else .failed },
      by simp only [step, hc, hstage]; rfl, Function.update_self .., rfl, ?_,
      fun h => by simp [hw h]⟩
    split_ifs <;> simp [Call.left, hstage, hasked]
  · simp [Call.left, hstage] at hleft
  · simp [Call.left, hstage] at hleft

/-- Over any interleaving of `ballotAbove` calls, crashes and failed writes in which every read of
the mark succeeds: the counters handed out increase over the node's whole life; a call asks for at
most two and what it returns is above what it was given; and while it is not done it goes on, for at
most three steps, failing only where a write does. -/
theorem ballots_fresh {self : NodeID}
    (hb : Along step (fun s a => Below s a ∧ Readable s a) (fresh self) as)
    (hr : run step (fresh self) as = some s) (hs : s.node.mark.value < bound) :
    s.handed.Pairwise (· > ·) ∧ ∀ i c, s.calls i = some c → c.asked ≤ 2 ∧ c.left ≤ 3 ∧
      (∀ nb, c.stage = .returned nb → c.above < nb) ∧
      (c.left = 0 ↔ (∃ nb, c.stage = .returned nb) ∨ c.stage = .failed) ∧
      (c.left ≠ 0 → ∀ w, ∃ s' c', step s (.advance i true w) = some s' ∧
        s'.calls i = some c' ∧ c'.above = c.above ∧ c'.left < c.left ∧
        (w = .acked → c'.stage ≠ .failed)) := by
  have h := inv_run hb hr
  refine ⟨h.sorted, fun i c hc => ⟨(h.calls i c hc).asked, ?_, (h.calls i c hc).returned, ?_,
    fun hleft w => advance_progress h hs hc hleft (fun _ => rfl) w⟩⟩
  · unfold Call.left
    split
    · split_ifs <;> omega
    · omega
    · omega
  · unfold Call.left
    rcases c.stage with _ | _ | nb | _
    · by_cases h0 : c.asked = 0 <;> simp [h0]
    · simp
    · simp
    · simp

/-- Three calls at once, a lost reservation, a restart and one call more. -/
def crashed : List Action :=
  [.ballotAbove 0 ⟨5000, 9⟩, .advance 0 true .acked, .ballotAbove 1 ⟨0, 0⟩, .advance 1 true .acked,
    .advance 0 true .acked, .advance 0 true .acked, .ballotAbove 2 ⟨9000, 9⟩,
    .advance 2 true .acked, .advance 2 true .lost, .restart 10000, .ballotAbove 0 ⟨7000, 9⟩,
    .advance 0 true .acked]

theorem ballots_fresh_crashed :
    ∃ s, run step (fresh 3) crashed = some s ∧ s.handed = [10001, 5002, 5001, 2, 1] ∧
      s.handed.Pairwise (· > ·) ∧ ∀ i c, s.calls i = some c → c.asked ≤ 2 ∧
        ∀ nb, c.stage = .returned nb → c.above < nb := by
  have hrun := Option.some_get (show (run step (fresh 3) crashed).isSome = true by decide +kernel)
  have h := ballots_fresh (show Along step (fun s a => Below s a ∧ Readable s a) (fresh 3) crashed
    by decide +kernel) hrun.symm (by decide +kernel)
  exact ⟨_, hrun.symm, by decide +kernel, h.1,
    fun i c hc => ⟨(h.2 i c hc).1, (h.2 i c hc).2.2.1⟩⟩

/-- A bump to 5000, a crash, and a read of the mark that fails. -/
def missed : List Action :=
  [.ballotAbove 0 ⟨5000, 9⟩, .advance 0 true .acked, .advance 0 true .acked, .advance 0 true .acked,
    .restart 6000, .ballotAbove 0 ⟨0, 0⟩, .advance 0 false .acked]

/-- A failed read of the mark hands the first counter out a second time and takes the mark back. -/
theorem counter_reused : Along step Below (fresh 3) missed ∧
    ∃ s ∈ run step (fresh 3) missed, s.handed = [1, 5001, 1] ∧ s.node.mark.acked = 1000 := by
  decide +kernel

/-- What an attempt of a proposal asks of its ballot: the node's own, with a counter above every one
it has had, and above the ballot it was told of. -/
theorem returned_guard (h : Inv s) (hb : Below s (.advance i ok w)) (hok : s.node.Reads ok)
    (hc : s.calls i = some c) {nb : Ballot} (hs : step s (.advance i ok w) = some s') {c' : Call}
    (hc' : s'.calls i = some c') (hnb : c'.stage = .returned nb) :
    nb.proposer = s.self ∧ (∀ k ∈ s.handed, k < nb.counter) ∧ c.above < nb := by
  have hcall := h.calls i c hc
  simp only [step, hc] at hs
  rcases hstage : c.stage with _ | _ | x | _ <;> simp only [hstage] at hs
  · rcases hn : s.node.nextBallot ok w with ⟨node, _ | k⟩ <;> simp only [hn] at hs <;> cases hs
    · simp only [State.put, Function.update_self, Option.some.injEq] at hc'
      subst hc'
      cases hnb
    · simp only [State.put, Function.update_self, Option.some.injEq] at hc'
      subst hc'
      obtain ⟨-, hpast, -, -⟩ := nextBallot_handed h.node hb hok hn
      rcases got_cases c ⟨k, s.self⟩ with ⟨hlt, hgot⟩ | ⟨-, hgot⟩
      · rw [hgot] at hnb
        cases hnb
        exact ⟨rfl, hpast, hlt⟩
      · rw [hgot] at hnb
        cases hnb
  · cases hs
    simp only [State.put, Function.update_self, Option.some.injEq] at hc'
    subst hc'
    dsimp only at hnb
    split_ifs at hnb
  · cases hs
  · cases hs

end Dstore.Ballots

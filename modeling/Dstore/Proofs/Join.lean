import Dstore.Join
import Dstore.Proofs.Cluster

/-!
# One token, one node

The join CAS refuses a token that an entry carries; the voter CAS checks no token, and leaves no
entry. Where one request at a time is between its check and its entry, and no entry with the token
is dropped, every id admitted for the token is the same.
-/

namespace Dstore.Cluster.Join

variable {token : Bytes} {v u : View} {s s' : State} {a : Action} {c : Change} {i j : ℕ}
  {r r' : JoinRequest} {ph ph' : Phase}

/-- The request is past its check and has not proposed. -/
def Phase.active : Phase → Bool
  | .checked | .voted => true
  | _ => false

/-- Two requests that may both be between their check and their entry: those of one node, or two
that do not vote. -/
def compatible (r r' : JoinRequest) : Bool := r.id = r'.id || r.noVote && r'.noVote

/-- No step drops the token's entry; a request passes its check only beside compatible ones, on
the register's view where it is going to vote; and a request that has voted is not given up. -/
def serial (token : Bytes) (s : State) : Action → Bool
  | .change c => (casView c s.view).toOption.all fun v =>
      !tokenUsed s.view token || tokenUsed v token
  | .check i v => (s.reqs i).all fun (r, _) => (r.noVote || v = s.view) &&
      (List.range s.next).all fun j => j = i ||
        (s.reqs j).all fun (r', ph) => !ph.active || compatible r r'
  | .giveUp i => (s.reqs i).all fun (_, ph) => ph ≠ .voted
  | _ => true

theorem compatible_comm : compatible r r' = compatible r' r := by
  simp [compatible, eq_comm, Bool.and_comm]

theorem id_eq_of_compatible (h : compatible r r') (hr : r.noVote = false) : r'.id = r.id := by
  simpa [compatible, hr, eq_comm] using h

/-- What holds of the requests under one token. -/
structure Inv (token : Bytes) (s : State) : Prop where
  fresh : ∀ i, s.next ≤ i → s.reqs i = none
  asked : ∀ i r ph, s.reqs i = some (r, ph) → r.tokenID = token
  voted : ∀ i r, s.reqs i = some (r, .voted) → r.noVote = false
  apart : ∀ i j r r' ph ph', i ≠ j → s.reqs i = some (r, ph) → s.reqs j = some (r', ph') →
    ph.active → ph'.active → compatible r r'
  locked : ∀ a ∈ s.admitted, tokenUsed s.view token ∨
    ∃ i r, s.reqs i = some (r, .voted) ∧ r.id = a
  mine : ∀ i r ph, s.reqs i = some (r, ph) → ph.active → r.noVote = false →
    ∀ a ∈ s.admitted, a = r.id
  one : ∀ a ∈ s.admitted, ∀ b ∈ s.admitted, a = b

theorem tokenUsed_vote {w : View} {id : NodeID} (h : casView (voteChange v id) u = .ok w) :
    tokenUsed w token = tokenUsed u token := by
  obtain ⟨nv, bump, happ, rfl⟩ := casView_ok h
  unfold voteChange at happ
  split_ifs at happ
  · cases happ
    rfl
  · simp only [Change.apply, Cluster.addVotersFromSingle] at happ
    split_ifs at happ
    cases happ
    rfl
  · simp only [Change.apply, Cluster.addVoter] at happ
    split_ifs at happ
    cases happ
    rfl

theorem tokenUsed_join {now : ℤ} (h : casView (.join r now) u = .ok v) :
    tokenUsed u r.tokenID = false ∧ tokenUsed v r.tokenID = true := by
  obtain ⟨nv, bump, happ, rfl⟩ := casView_ok h
  obtain ⟨-, -, -, v', p, hfn, rfl⟩ := proposeTransition_ok happ
  unfold joinFn at hfn
  split_ifs at hfn with hused
  all_goals
    cases hfn
    refine ⟨by simpa using hused, ?_⟩
    have hmem : ∀ nd : Node, nd ∈ sortNodes (u.nodes ++ [nd]) := fun nd => by
      simp [sortNodes]
    simp only [tokenUsed, Option.any_some, Bool.or_eq_true, List.any_eq_true, decide_eq_true_eq]
    exact .inr ⟨_, hmem _, rfl⟩

theorem goto_reqs : (s.goto i r ph).reqs j = some (r', ph') ↔
    j = i ∧ r' = r ∧ ph' = ph ∨ j ≠ i ∧ s.reqs j = some (r', ph') := by
  by_cases hj : j = i
  · subst hj
    simp [State.goto, eq_comm]
  · simp [State.goto, hj]

section steps

variable (h : Inv token s)
include h

theorem Inv.goto (hi : i < s.next) (ht : r.tokenID = token) (hph : ph.active = false)
    (hold : ∀ r', s.reqs i ≠ some (r', .voted)) : Inv token (s.goto i r ph) := by
  have hne : ph ≠ .voted := by
    rintro rfl
    simp [Phase.active] at hph
  refine ⟨fun j hj => ?_, fun j r' ph' hj => ?_, fun j r' hj => ?_, ?_, fun a ha => ?_,
    fun j r' ph' hj hact => ?_, h.one⟩
  · have hji : j ≠ i := (lt_of_lt_of_le hi hj).ne'
    simpa [State.goto, Function.update_of_ne hji] using h.fresh j hj
  · rcases goto_reqs.1 hj with ⟨-, rfl, -⟩ | ⟨-, hj'⟩
    · exact ht
    · exact h.asked j r' ph' hj'
  · rcases goto_reqs.1 hj with ⟨-, -, hv⟩ | ⟨-, hj'⟩
    · exact absurd hv.symm hne
    · exact h.voted j r' hj'
  · intro j k r₁ r₂ ph₁ ph₂ hjk hj hk h1 h2
    rcases goto_reqs.1 hj with ⟨-, -, rfl⟩ | ⟨-, hj'⟩
    · simp [hph] at h1
    · rcases goto_reqs.1 hk with ⟨-, -, rfl⟩ | ⟨-, hk'⟩
      · simp [hph] at h2
      · exact h.apart j k r₁ r₂ ph₁ ph₂ hjk hj' hk' h1 h2
  · rcases h.locked a ha with hu | ⟨j, r', hj, ha'⟩
    · exact .inl hu
    · have hji : j ≠ i := by
        rintro rfl
        exact hold r' hj
      exact .inr ⟨j, r', goto_reqs.2 (.inr ⟨hji, hj⟩), ha'⟩
  · rcases goto_reqs.1 hj with ⟨-, -, rfl⟩ | ⟨-, hj'⟩
    · simp [hph] at hact
    · exact h.mine j r' ph' hj' hact

theorem Inv.cas {past : List View} (hu : tokenUsed s.view token → tokenUsed u token) :
    Inv token { s with view := u, past := past } :=
  ⟨h.fresh, h.asked, h.voted, h.apart, fun a ha => (h.locked a ha).imp_left hu, h.mine, h.one⟩

/-- A request passes its check beside requests it is compatible with. -/
theorem Inv.check (hi : s.reqs i = some (r, .waiting))
    (hcomp : ∀ j r' ph', j ≠ i → s.reqs j = some (r', ph') → ph'.active → compatible r r')
    (hfree : r.noVote = false → tokenUsed s.view token = false) :
    Inv token (s.goto i r .checked) := by
  refine ⟨fun j hj => ?_, fun j r' ph' hj => ?_, fun j r' hj => ?_, ?_, fun a ha => ?_,
    fun j r' ph' hj hact hv a ha => ?_, h.one⟩
  · have hji : j ≠ i := by
      rintro rfl
      simp [h.fresh j hj] at hi
    simpa [State.goto, Function.update_of_ne hji] using h.fresh j hj
  · rcases goto_reqs.1 hj with ⟨rfl, rfl, -⟩ | ⟨-, hj'⟩
    · exact h.asked j r' _ hi
    · exact h.asked j r' ph' hj'
  · rcases goto_reqs.1 hj with ⟨-, -, hv⟩ | ⟨-, hj'⟩
    · cases hv
    · exact h.voted j r' hj'
  · intro j k r₁ r₂ ph₁ ph₂ hjk hj hk h1 h2
    rcases goto_reqs.1 hj with ⟨rfl, rfl, rfl⟩ | ⟨hji, hj'⟩
    · rcases goto_reqs.1 hk with ⟨rfl, -, -⟩ | ⟨hki, hk'⟩
      · exact absurd rfl hjk
      · exact hcomp k r₂ ph₂ hki hk' h2
    · rcases goto_reqs.1 hk with ⟨rfl, rfl, rfl⟩ | ⟨-, hk'⟩
      · rw [compatible_comm]
        exact hcomp j r₁ ph₁ hji hj' h1
      · exact h.apart j k r₁ r₂ ph₁ ph₂ hjk hj' hk' h1 h2
  · rcases h.locked a ha with hu | ⟨j, r', hj, ha'⟩
    · exact .inl hu
    · have hji : j ≠ i := by
        rintro rfl
        simp [hi] at hj
      exact .inr ⟨j, r', goto_reqs.2 (.inr ⟨hji, hj⟩), ha'⟩
  · rcases goto_reqs.1 hj with ⟨rfl, rfl, rfl⟩ | ⟨-, hj'⟩
    · -- the token is on no entry, so whoever was admitted has voted and is compatible
      rcases h.locked a ha with hu | ⟨k, r₂, hk, rfl⟩
      · simp [hfree hv] at hu
      · have hkj : k ≠ j := by
          rintro rfl
          simp [hi] at hk
        exact id_eq_of_compatible (hcomp k r₂ _ hkj hk rfl) hv
    · exact h.mine j r' ph' hj' hact hv a ha

/-- A request admits its node: those admitted before are the same, and the token is locked by
the entry or by the vote. -/
theorem Inv.enter (hi : s.reqs i = some (r, ph)) (hact : ph.active)
    (hone : ∀ a ∈ s.admitted, a = r.id)
    (hlock : ph' = .joined ∧ tokenUsed s.view token ∨ ph' = .voted ∧ r.noVote = false) :
    Inv token ((s.goto i r ph').enter r.id) := by
  have hadm : ∀ a ∈ ((s.goto i r ph').enter r.id).admitted, a = r.id := fun a ha => by
    rcases List.mem_cons.1 ha with rfl | ha
    · rfl
    · exact hone a ha
  have hreq : ∀ {j r₁ ph₁}, ((s.goto i r ph').enter r.id).reqs j = some (r₁, ph₁) →
      j = i ∧ r₁ = r ∧ ph₁ = ph' ∨ j ≠ i ∧ s.reqs j = some (r₁, ph₁) := goto_reqs.1
  refine ⟨fun j hj => ?_, fun j r₁ ph₁ hj => ?_, fun j r₁ hj => ?_, ?_, fun a ha => ?_,
    fun j r₁ ph₁ hj hact₁ hv a ha => ?_, fun a ha b hb => (hadm a ha).trans (hadm b hb).symm⟩
  · have hji : j ≠ i := by
      rintro rfl
      simp [h.fresh j hj] at hi
    simpa [State.goto, State.enter, Function.update_of_ne hji] using h.fresh j hj
  · rcases hreq hj with ⟨rfl, rfl, -⟩ | ⟨-, hj'⟩
    · exact h.asked j r₁ ph hi
    · exact h.asked j r₁ ph₁ hj'
  · rcases hreq hj with ⟨-, rfl, rfl⟩ | ⟨-, hj'⟩
    · simpa using hlock
    · exact h.voted j r₁ hj'
  · intro j k r₁ r₂ ph₁ ph₂ hjk hj hk h1 h2
    rcases hreq hj with ⟨rfl, rfl, rfl⟩ | ⟨hji, hj'⟩
    · rcases hreq hk with ⟨rfl, -, -⟩ | ⟨hki, hk'⟩
      · exact absurd rfl hjk
      · exact h.apart j k r₁ r₂ ph ph₂ hjk hi hk' hact h2
    · rcases hreq hk with ⟨rfl, rfl, rfl⟩ | ⟨-, hk'⟩
      · exact h.apart j k r₁ r₂ ph₁ ph hjk hj' hi h1 hact
      · exact h.apart j k r₁ r₂ ph₁ ph₂ hjk hj' hk' h1 h2
  · rcases hlock with ⟨-, hu⟩ | ⟨rfl, -⟩
    · exact .inl hu
    · exact .inr ⟨i, r, goto_reqs.2 (.inl ⟨rfl, rfl, rfl⟩), (hadm a ha).symm⟩
  · rw [hadm a ha]
    rcases hreq hj with ⟨-, rfl, -⟩ | ⟨hji, hj'⟩
    · rfl
    · exact id_eq_of_compatible (h.apart j i r₁ r ph₁ ph hji hj' hi hact₁ hact) hv

theorem Inv.admitted_eq (hi : s.reqs i = some (r, ph)) (hact : ph.active)
    (hu : tokenUsed s.view token = false) : ∀ a ∈ s.admitted, a = r.id := by
  intro a ha
  rcases h.locked a ha with hu' | ⟨j, r', hj, rfl⟩
  · simp [hu] at hu'
  · by_cases hji : j = i
    · subst hji
      rw [hi] at hj
      cases hj
      rfl
    · exact (id_eq_of_compatible (h.apart j i r' r .voted ph hji hj hi rfl hact)
        (h.voted j r' hj)).symm

end steps

/-- A serial step keeps the invariant. -/
theorem inv_step (h : Inv token s) (hok : serial token s a) (hs : step token s a = some s') :
    Inv token s' := by
  cases a with
  | arrive r =>
    simp only [step] at hs
    split_ifs at hs with hc
    cases hs
    have h' : Inv token { s with next := s.next + 1 } :=
      ⟨fun i hi => h.fresh i (Nat.le_of_succ_le hi), h.asked, h.voted, h.apart, h.locked, h.mine,
        h.one⟩
    refine h'.goto (Nat.lt_succ_self _) hc.2 rfl fun r' => ?_
    simp [h.fresh s.next le_rfl]
  | check i v =>
    simp only [step] at hs
    split at hs <;> try cases hs
    rename_i r hi
    split_ifs at hs with hc
    cases hs
    simp only [serial, hi, Option.all_some, Bool.and_eq_true, Bool.or_eq_true,
      decide_eq_true_eq, List.all_eq_true, List.mem_range] at hok
    refine h.check hi (fun j r' ph' hji hj hact => ?_) fun hv => ?_
    · have hlt : j < s.next := by
        by_contra hge
        simp [h.fresh j (not_lt.1 hge)] at hj
      simpa [hji, hj, hact] using hok.2 j hlt
    · have hvv : v = s.view := by simpa [hv] using hok.1
      simpa [hvv] using hc.2.2.1
  | vote i v =>
    simp only [step] at hs
    split at hs <;> try cases hs
    rename_i r hi
    split_ifs at hs with hc
    obtain ⟨u, hu, rfl⟩ := Register.cas_eq_some hs
    have hv : r.noVote = false := by simpa using hc.2.1
    have hone := h.mine i r .checked hi rfl hv
    exact (h.cas fun ht => (tokenUsed_vote hu).trans ht).enter hi rfl hone (.inr ⟨rfl, hv⟩)
  | propose i now =>
    simp only [step] at hs
    split at hs <;> try cases hs
    rename_i r ph hi
    split_ifs at hs with hc
    obtain ⟨u, hu, rfl⟩ := Register.cas_eq_some hs
    obtain ⟨hfree, hused⟩ := tokenUsed_join hu
    rw [h.asked i r ph hi] at hfree hused
    have hact : ph.active := by
      rcases hc with rfl | ⟨rfl, -⟩ <;> rfl
    exact (h.cas fun _ => hused).enter hi hact (h.admitted_eq hi hact hfree)
      (.inl ⟨rfl, hused⟩)
  | delete i =>
    simp only [step] at hs
    split at hs <;> cases hs
    rename_i r hi
    have h' : Inv token { s with token := false } :=
      ⟨h.fresh, h.asked, h.voted, h.apart, h.locked, h.mine, h.one⟩
    refine h'.goto ?_ (h.asked i r _ hi) rfl fun r' => by simp [hi]
    by_contra hge
    simp [h.fresh i (not_lt.1 hge)] at hi
  | giveUp i =>
    simp only [step] at hs
    split at hs <;> cases hs
    rename_i r ph hi
    refine h.goto ?_ (h.asked i r _ hi) rfl fun r' hv => ?_
    · by_contra hge
      simp [h.fresh i (not_lt.1 hge)] at hi
    · simp [serial, hv] at hok
  | clear =>
    cases hs
    exact ⟨h.fresh, h.asked, h.voted, h.apart, h.locked, h.mine, h.one⟩
  | change c =>
    simp only [step] at hs
    split_ifs at hs
    obtain ⟨u, hc, rfl⟩ := Register.cas_eq_some hs
    refine h.cas fun hu => ?_
    simpa [serial, hc, Except.toOption, hu] using hok

theorem moves_step (hs : step token s a = some s') :
    Log.Moves casView s.view s'.view s.past s'.past := by
  cases a <;> simp only [step] at hs
  case vote i v =>
    split at hs <;> try cases hs
    split_ifs at hs
    obtain ⟨u, hu, rfl⟩ := Register.cas_eq_some hs
    exact .inr ⟨_, hu, rfl⟩
  case propose i now =>
    split at hs <;> try cases hs
    split_ifs at hs
    obtain ⟨u, hu, rfl⟩ := Register.cas_eq_some hs
    exact .inr ⟨_, hu, rfl⟩
  case change c =>
    split_ifs at hs
    obtain ⟨u, hu, rfl⟩ := Register.cas_eq_some hs
    exact .inr ⟨_, hu, rfl⟩
  all_goals
    (repeat' split at hs) <;> cases hs <;> exact .inl ⟨rfl, rfl⟩

/-- The register's views are those of a chain of CASes, as the committed ones of the protocol are.
-/
theorem held_run {acts : List Action} (hr : Machine.run (step token) (start v) acts = some s) :
    Log.Held casView v s.view s.past :=
  .run (fun _ _ _ => moves_step) (Log.held_start casView v) hr

theorem inv_start (v : View) : Inv token (start v) := by
  constructor <;> simp [start]

theorem inv_run {acts : List Action}
    (hok : Machine.Along (step token) (fun s a => serial token s a) (start v) acts)
    (hrun : s ∈ Machine.run (step token) (start v) acts) : Inv token s :=
  Machine.invariant_along (fun _ _ _ h hok hs => inv_step h hok hs) acts (inv_start v) hok hrun

/-- In a run whose requests with the token are serialised, and which keeps the token's entry, at
most one node is added to the view for the token. -/
theorem admitted_once {acts : List Action}
    (hok : Machine.Along (step token) (fun s a => serial token s a) (start v) acts)
    (hrun : s ∈ Machine.run (step token) (start v) acts) :
    ∀ m ∈ s.admitted, ∀ n ∈ s.admitted, m = n :=
  (inv_run hok hrun).one

namespace Trio

/-- Three voters, all of them nodes. -/
def first : View where
  incarnation := 1
  epoch := 1
  version := 1
  replicas := 2
  minReplicas := 1
  voters := [⟨1, 1⟩, ⟨2, 1⟩, ⟨3, 1⟩]
  nodes := [{ id := 1, weight := 8 }, { id := 2, weight := 8 }, { id := 3, weight := 8 }]

/-- The token of all requests. -/
def tok : Bytes := [7]

/-- A node that joins as a voter too. -/
def voting (id : NodeID) : JoinRequest := { id := id, tokenID := tok, weight := 4 }

/-- A node that joins without a vote. -/
def silent (id : NodeID) : JoinRequest := { voting id with noVote := true }

/-- The view after these actions. -/
def after (acts : List Action) : View :=
  ((Machine.run (step tok) (start first) acts).map (·.view)).getD first

/-- The first request goes through, the second is turned away. -/
def served : List Action :=
  [.arrive (voting 10), .arrive (voting 11), .check 0 first, .vote 0 first,
    .change .voterSyncDone, .propose 0 0, .delete 0, .giveUp 1]

/-- The first request is given up after its vote. -/
def crashed : List Action :=
  [.arrive (voting 10), .arrive (voting 11), .check 0 first, .vote 0 first,
    .change .voterSyncDone, .giveUp 0]

/-- The transition of a silent node is aborted. -/
def aborted : List Action :=
  [.arrive (silent 10), .arrive (silent 11), .check 0 first, .propose 0 0, .delete 0,
    .change .abort]

end Trio

theorem admitted_once_served :
    ∃ s ∈ Machine.run (step Trio.tok) (start Trio.first) Trio.served,
      s.admitted ≠ [] ∧ ∀ m ∈ s.admitted, ∀ n ∈ s.admitted, m = n := by
  have hok : Machine.Along (step Trio.tok) (fun s a => serial Trio.tok s a)
      (start Trio.first) Trio.served := by
    decide +kernel
  have hend : ∃ s ∈ Machine.run (step Trio.tok) (start Trio.first) Trio.served,
      s.admitted ≠ [] := by
    decide +kernel
  obtain ⟨s, hrun, hne⟩ := hend
  exact ⟨s, hrun, hne, admitted_once hok hrun⟩

/-- The token admits two nodes: as voters, where the first request fails before its entry, and
as data nodes, where the first entry is aborted. -/
theorem token_admits_two :
    (∃ s ∈ Machine.run (step Trio.tok) (start Trio.first) (Trio.crashed ++
        [.check 1 (Trio.after Trio.crashed), .vote 1 (Trio.after Trio.crashed)]),
      s.view.isVoter 10 ∧ s.view.isVoter 11 ∧ s.admitted = [11, 10]) ∧
    ∃ s ∈ Machine.run (step Trio.tok) (start Trio.first) (Trio.aborted ++
        [.check 1 (Trio.after Trio.aborted), .propose 1 0]),
      s.token = false ∧ (s.view.node 11).isSome ∧ s.admitted = [11, 10] := by
  decide +kernel

end Dstore.Cluster.Join

import Dstore.System

/-!
# What the rounds of a call know

A prepare round that returns a row has heard promises of a majority, and the row is the highest they
reported; an accept round that returns without an error has heard a majority accept.
-/

namespace Dstore

variable {σ ε : Type} {log : List Event} {v : View} {reg : Bytes} {b : Ballot} {w : NodeID}
  {x : Bytes × Bool} {row cur : Row} {ans : Answer}

/-- The promise was given at the epoch of `v`. -/
def PromisedTo (log : List Event) (v : View) (reg : Bytes) (b : Ballot) (w : NodeID) (row : Row) :
    Prop :=
  ⟨w, ⟨v.incarnation, v.epoch, .prepare reg b⟩,
    ⟨v.incarnation, v.epoch, .promise row.accepted row.value row.hasValue⟩⟩ ∈ log

/-- The vote was given at the epoch of `v`. -/
def VotedFor (log : List Event) (v : View) (reg : Bytes) (b : Ballot) (x : Bytes × Bool)
    (w : NodeID) : Prop :=
  ∃ notAfter, ⟨w, ⟨v.incarnation, v.epoch, .accept reg b x.1 x.2 notAfter⟩,
    ⟨v.incarnation, v.epoch, .accepted⟩⟩ ∈ log

/-- A majority promised `b`, and `cur` is the highest row they reported. -/
def PromiseQuorum (log : List Event) (v : View) (reg : Bytes) (b : Ballot) (cur : Row) : Prop :=
  ∃ Q, Majority.IsQuorum v.voterIDs Q ∧
    (∀ w ∈ Q, ∃ row, PromisedTo log v reg b w row ∧ row.accepted ≤ cur.accepted) ∧
    ∃ w ∈ Q, PromisedTo log v reg b w cur

/-- A majority of `v` has voted. -/
def VoteQuorum (log : List Event) (v : View) (reg : Bytes) (b : Ballot) (x : Bytes × Bool) :
    Prop :=
  ∃ Q, Majority.IsQuorum v.voterIDs Q ∧ ∀ w ∈ Q, VotedFor log v reg b x w

/-- The promises a prepare loop has counted, by voters no longer pending. -/
def PrepareTally (log : List Event) (v : View) (reg : Bytes) (b : Ballot) (pending : List NodeID)
    (l : PrepareLoop) : Prop :=
  ∃ P : Finset NodeID, P.card = l.promises ∧
    (∀ w ∈ P, w ∈ v.voterIDs ∧ w ∉ pending ∧
      ∃ row, PromisedTo log v reg b w row ∧ row.accepted ≤ l.best.accepted) ∧
    (0 < l.promises → ∃ w ∈ P, PromisedTo log v reg b w l.best)

/-- As many voters as were counted have accepted, none of them still pending. -/
def AcceptTally (log : List Event) (v : View) (reg : Bytes) (b : Ballot) (x : Bytes × Bool)
    (pending : List NodeID) (l : AcceptLoop) : Prop :=
  ∃ P : Finset NodeID, P.card = l.accepted ∧
    ∀ w ∈ P, w ∈ v.voterIDs ∧ w ∉ pending ∧ VotedFor log v reg b x w

variable {log' : List Event}

theorem PromiseQuorum.mono (h : PromiseQuorum log v reg b cur) (hs : ∀ e ∈ log, e ∈ log') :
    PromiseQuorum log' v reg b cur := by
  obtain ⟨Q, hQ, hall, w, hw, hcur⟩ := h
  exact ⟨Q, hQ, fun w hw => (hall w hw).imp fun row hr => ⟨hs _ hr.1, hr.2⟩, w, hw, hs _ hcur⟩

theorem VotedFor.mono (h : VotedFor log v reg b x w) (hs : ∀ e ∈ log, e ∈ log') :
    VotedFor log' v reg b x w :=
  h.imp fun _ hn => hs _ hn

theorem VoteQuorum.mono (h : VoteQuorum log v reg b x) (hs : ∀ e ∈ log, e ∈ log') :
    VoteQuorum log' v reg b x := by
  obtain ⟨Q, hQ, hall⟩ := h
  exact ⟨Q, hQ, fun w hw => (hall w hw).mono hs⟩

theorem PrepareTally.mono {ids ids' : List NodeID} {l : PrepareLoop}
    (h : PrepareTally log v reg b ids l) (hs : ∀ e ∈ log, e ∈ log') (hi : ∀ w ∈ ids', w ∈ ids) :
    PrepareTally log' v reg b ids' l := by
  obtain ⟨P, hc, hall, hbest⟩ := h
  refine ⟨P, hc, fun w hw => ?_, fun h0 => (hbest h0).imp fun w hw => ⟨hw.1, hs _ hw.2⟩⟩
  obtain ⟨h1, h2, row, hrow, hle⟩ := hall w hw
  exact ⟨h1, fun hm => h2 (hi w hm), row, hs _ hrow, hle⟩

theorem AcceptTally.mono {ids ids' : List NodeID} {l : AcceptLoop}
    (h : AcceptTally log v reg b x ids l) (hs : ∀ e ∈ log, e ∈ log') (hi : ∀ w ∈ ids', w ∈ ids) :
    AcceptTally log' v reg b x ids' l := by
  obtain ⟨P, hc, hall⟩ := h
  refine ⟨P, hc, fun w hw => ?_⟩
  obtain ⟨h1, h2, hv⟩ := hall w hw
  exact ⟨h1, fun hm => h2 (hi w hm), hv.mono hs⟩

theorem prepareTally_init (log : List Event) (v : View) (reg : Bytes) (b : Ballot)
    (ids : List NodeID) : PrepareTally log v reg b ids {} :=
  ⟨∅, rfl, by simp, fun h => absurd h (lt_irrefl 0)⟩

theorem acceptTally_init (log : List Event) (v : View) (reg : Bytes) (b : Ballot)
    (x : Bytes × Bool) (ids : List NodeID) : AcceptTally log v reg b x ids {} :=
  ⟨∅, rfl, by simp⟩

theorem classify_ok {r : Reply} (h : classify v (some ans) = .ok r) :
    ans = ⟨v.incarnation, v.epoch, r⟩ := by
  rcases ans with ⟨inc, ep, reply⟩
  simp only [classify] at h
  split at h <;> try cases h
  split_ifs at h with he
  push Not at he
  split at h <;> cases h
  simp [he]

/-- A reply ends the round, is passed over, or is a promise. -/
theorem PrepareLoop.reply_cases (l : PrepareLoop) (v : View) (r : Option Answer) :
    (∃ e, l.reply v r = .ret (.error e) ∧ ∀ n q, e ≠ .unknown n q) ∨
    (∃ l', l.reply v r = .next l' ∧ l'.best = l.best ∧ l'.promises = l.promises) ∨
    ∃ row : Row, r = some ⟨v.incarnation, v.epoch,
        .promise row.accepted row.value row.hasValue⟩ ∧
      l.reply v r =
        (let best := if l.promises = 0 ∨ l.best.accepted < row.accepted then row else l.best
        if v.quorum ≤ l.promises + 1 then .ret (.ok best)
        else .next { l with best := best, promises := l.promises + 1 }) := by
  unfold reply
  split
  · exact .inl ⟨_, rfl, by simp⟩
  · exact .inl ⟨_, rfl, by simp⟩
  · exact .inr (.inl ⟨_, rfl, rfl, rfl⟩)
  · rename_i acc value hasValue hc
    refine .inr (.inr ⟨⟨acc, value, hasValue⟩, ?_, rfl⟩)
    rcases r with _ | ans
    · simp [classify] at hc
    · rw [classify_ok hc]
  · exact .inr (.inl ⟨_, rfl, rfl, rfl⟩)

/-- A reply ends the round, is passed over, or is a vote. -/
theorem AcceptLoop.reply_cases (l : AcceptLoop) (v : View) (r : Option Answer) :
    (∃ e, l.reply v r = .ret (.error e) ∧ ∀ n q, e ≠ .unknown n q) ∨
    (∃ l', l.reply v r = .next l' ∧ l'.accepted = l.accepted) ∨
    r = some ⟨v.incarnation, v.epoch, .accepted⟩ ∧
      l.reply v r = (if v.quorum ≤ l.accepted + 1 then .ret (.ok ())
        else .next { l with accepted := l.accepted + 1 }) := by
  unfold reply
  split
  · exact .inl ⟨_, rfl, by simp⟩
  · exact .inl ⟨_, rfl, by simp⟩
  · exact .inl ⟨_, rfl, by simp⟩
  · exact .inr (.inl ⟨_, rfl, rfl⟩)
  · rename_i hc
    refine .inr (.inr ⟨?_, rfl⟩)
    rcases r with _ | ans
    · simp [classify] at hc
    · rw [classify_ok hc]
  · exact .inr (.inl ⟨_, rfl, rfl⟩)

section turn

variable {ids rest : List NodeID} (hw : w ∈ v.voterIDs) (hids : w ∈ ids) (hrest : w ∉ rest)
  (hsub : ∀ u ∈ rest, u ∈ ids)
include hw hids hrest hsub

/-- One turn of the prepare loop keeps its count, and returns only on a majority. -/
theorem PrepareTally.reply {l : PrepareLoop} (h : PrepareTally log v reg b ids l)
    {r : Option Answer}
    (hr : ∀ ans, r = some ans → ⟨w, ⟨v.incarnation, v.epoch, .prepare reg b⟩, ans⟩ ∈ log) :
    (∀ l', l.reply v r = .next l' → PrepareTally log v reg b rest l') ∧
      ∀ cur, l.reply v r = .ret (.ok cur) → PromiseQuorum log v reg b cur := by
  rcases l.reply_cases v r with ⟨e, he, -⟩ | ⟨l', he, hbest, hprom⟩ | ⟨row, rfl, he⟩
  · simp [he]
  · refine ⟨fun l'' h' => ?_, fun cur h' => by simp [he] at h'⟩
    obtain rfl : l' = l'' := by simpa [he] using h'
    have := h.mono (fun _ h => h) hsub
    unfold PrepareTally at this ⊢
    rwa [hbest, hprom]
  obtain ⟨P, hc, hall, hb⟩ := h
  have hnew : PromisedTo log v reg b w row := hr _ rfl
  have hwP : w ∉ P := fun hwP => (hall w hwP).2.1 hids
  set best := if l.promises = 0 ∨ l.best.accepted < row.accepted then row else l.best with hbest
  have hcard : (insert w P).card = l.promises + 1 := by rw [Finset.card_insert_of_notMem hwP, hc]
  have hge : row.accepted ≤ best.accepted ∧ ∀ u ∈ P, l.best.accepted ≤ best.accepted := by
    rw [hbest]
    split_ifs with hcond
    · refine ⟨le_rfl, fun u hu => ?_⟩
      rcases hcond with h0 | hlt
      · have := Finset.card_pos.2 ⟨u, hu⟩
        omega
      · exact hlt.le
    · push Not at hcond
      exact ⟨hcond.2, fun _ _ => le_rfl⟩
  have hmem : ∃ u ∈ insert w P, PromisedTo log v reg b u best := by
    rw [hbest]
    split_ifs with hcond
    · exact ⟨w, by simp, hnew⟩
    · push Not at hcond
      obtain ⟨u, hu, hprom⟩ := hb (Nat.pos_of_ne_zero hcond.1)
      exact ⟨u, by simp [hu], hprom⟩
  have hall' : ∀ u ∈ insert w P, u ∈ v.voterIDs ∧ u ∉ rest ∧
      ∃ row, PromisedTo log v reg b u row ∧ row.accepted ≤ best.accepted := by
    intro u hu
    rcases Finset.mem_insert.1 hu with rfl | hu
    · exact ⟨hw, hrest, row, hnew, hge.1⟩
    · obtain ⟨h1, h2, row', h3, h4⟩ := hall u hu
      exact ⟨h1, fun hm => h2 (hsub u hm), row', h3, h4.trans (hge.2 u hu)⟩
  simp only [he]
  split_ifs with hq
  · refine ⟨by simp, fun cur hcur => ?_⟩
    obtain rfl : best = cur := by simpa using hcur
    refine ⟨insert w P, ⟨fun u hu => (hall' u hu).1, ?_⟩, fun u hu => (hall' u hu).2.2, hmem⟩
    rw [hcard, ← View.quorum_eq]
    exact hq
  · refine ⟨fun l' hl' => ?_, by simp⟩
    obtain rfl := by simpa using hl'
    exact ⟨insert w P, hcard, hall', fun _ => hmem⟩

/-- One turn of the accept loop keeps its count, and returns only on a majority. -/
theorem AcceptTally.reply {l : AcceptLoop} (h : AcceptTally log v reg b x ids l)
    {r : Option Answer} {notAfter : ℤ}
    (hr : ∀ ans, r = some ans →
      ⟨w, ⟨v.incarnation, v.epoch, .accept reg b x.1 x.2 notAfter⟩, ans⟩ ∈ log) :
    (∀ l', l.reply v r = .next l' → AcceptTally log v reg b x rest l') ∧
      (l.reply v r = .ret (.ok ()) → VoteQuorum log v reg b x) := by
  rcases l.reply_cases v r with ⟨e, he, -⟩ | ⟨l', he, hacc⟩ | ⟨rfl, he⟩
  · simp [he]
  · refine ⟨fun l'' h' => ?_, fun h' => by simp [he] at h'⟩
    obtain rfl : l' = l'' := by simpa [he] using h'
    have := h.mono (fun _ h => h) hsub
    unfold AcceptTally at this ⊢
    rwa [hacc]
  obtain ⟨P, hc, hall⟩ := h
  have hwP : w ∉ P := fun hwP => (hall w hwP).2.1 hids
  have hcard : (insert w P).card = l.accepted + 1 := by rw [Finset.card_insert_of_notMem hwP, hc]
  have hall' : ∀ u ∈ insert w P, u ∈ v.voterIDs ∧ u ∉ rest ∧ VotedFor log v reg b x u := by
    intro u hu
    rcases Finset.mem_insert.1 hu with rfl | hu
    · exact ⟨hw, hrest, notAfter, hr _ rfl⟩
    · obtain ⟨h1, h2, h3⟩ := hall u hu
      exact ⟨h1, fun hm => h2 (hsub u hm), h3⟩
  rw [he]
  split_ifs with hq
  · refine ⟨by simp, fun _ => ⟨insert w P, ⟨fun u hu => (hall' u hu).1, ?_⟩,
      fun u hu => (hall' u hu).2.2⟩⟩
    rw [hcard, ← View.quorum_eq]
    exact hq
  · refine ⟨fun l' hl' => ?_, by simp⟩
    obtain rfl := by simpa using hl'
    exact ⟨insert w P, hcard, hall'⟩

end turn

end Dstore

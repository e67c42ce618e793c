import Dstore.Pull
import Dstore.Proofs.FetchOrder
import Dstore.Proofs.FetchEnds

/-!
# One outcome for every key

Where every reply has only records that were asked for, each once, a fetcher yields one outcome for
every key, and ends. The count of `PullTree` is the keys queued less the outcomes read (`Tallied`):
the keys are distinct, so when it is zero each of them has been received.
-/

namespace Dstore.Pull

open Fetch (Config Client Move move_of_step)

variable {κ ι : Type} [DecidableEq κ] [DecidableEq ι] {cfg : Config κ} {s s' : State κ ι}

/-- The key that is wanted and counted, but not yet queued. -/
def Pc.owed : Pc κ → ℕ
  | .wanting _ true => 1
  | _ => 0

/-- Every key is queued once, and counted until its object is read. -/
structure Tallied (s : State κ ι) : Prop where
  handed : s.fetch.handed ++ s.queue = s.queued
  nodup : s.queued.Nodup
  seen : s.queued ⊆ s.seen
  read : s.read ≤ s.fetch.out.length
  pending : s.pc ≠ .failed →
    s.pending + s.read = s.queued.length + s.pc.owed ∧ s.pc.owed ≤ s.pending

omit [DecidableEq κ] in
theorem out_length_route {n : ℕ} (f : Fetch.State κ ι) (fk : Fetch.FetchKey κ ι) (c : Client κ ι)
    (hn : n = f.out.length) : n ≤ (f.route fk c).out.length := by
  subst hn
  rcases Fetch.route_eq f fk c with ⟨_, h⟩ | ⟨_, h⟩ <;> rw [h] <;> unfold Fetch.State.place <;>
    split <;> simp

/-- The fetcher's own steps leave the keys handed in alone, and only add outcomes. -/
theorem handed_out_of_move {f f' : Fetch.State κ ι} {a : Fetch.Action κ ι} (hm : Move cfg f a f')
    (ha : ∀ k, a ≠ .add k) : f'.handed = f.handed ∧ f.out.length ≤ f'.out.length := by
  cases hm with
  | add k => exact absurd rfl (ha k)
  | routeIn | routeRetry => exact ⟨by simp, out_length_route _ _ _ rfl⟩
  | record => exact ⟨rfl, by simp⟩
  | _ => exact ⟨rfl, le_rfl⟩

omit [DecidableEq ι] in
theorem Tallied.want (h : Tallied s) {o : Lookup κ} (hs : s.want o = some s') :
    Tallied s' ∧ s'.fetch = s.fetch := by
  have hp := h.pending
  unfold State.want at hs
  split at hs
  · next received hpc =>
    cases hs
    refine ⟨⟨h.handed, h.nodup, h.seen, h.read, fun _ => ?_⟩, rfl⟩
    have := hp (by simp [hpc])
    cases received <;> simp [hpc, Pc.owed] at this ⊢ <;> omega
  · next k todo received hpc =>
    have hp := hp (by simp [hpc])
    have howed : ∀ l : List κ, (Pc.wanting l received).owed = s.pc.owed := fun l => by
      rw [hpc]
      cases received <;> rfl
    split at hs
    · cases hs
      exact ⟨⟨h.handed, h.nodup, h.seen, h.read, fun _ => by rw [howed]; exact hp⟩, rfl⟩
    · next hk =>
      have hsub : s.queued ⊆ k :: s.seen := fun x hx => List.mem_cons_of_mem _ (h.seen hx)
      cases o with
      | error =>
        cases hs
        exact ⟨⟨h.handed, h.nodup, hsub, h.read, fun hf => absurd rfl hf⟩, rfl⟩
      | complete | kids =>
        cases hs
        exact ⟨⟨h.handed, h.nodup, hsub, h.read, fun _ => by rw [howed]; exact hp⟩, rfl⟩
      | lacking =>
        cases hs
        refine ⟨⟨?_, ?_, ?_, h.read, fun _ => ?_⟩, rfl⟩
        · rw [← List.append_assoc, h.handed]
        · exact List.nodup_append.2 ⟨h.nodup, List.nodup_singleton k, fun x hx y hy hxy =>
            hk (h.seen (List.mem_singleton.1 hy ▸ hxy ▸ hx))⟩
        · exact List.append_subset.2 ⟨hsub, by simp⟩
        · simp only [howed, List.length_append, List.length_singleton]
          omega
  · cases hs

theorem Tallied.receive (h : Tallied s) (hpc : s.pc = .looping) (hpos : 0 < s.pending)
    {kids : Option (List κ)} (hs : s.receive kids = some s') :
    Tallied s' ∧ s'.fetch = s.fetch := by
  have hp := h.pending (by simp [hpc])
  rw [hpc] at hp
  unfold State.receive at hs
  rcases hout : s.fetch.out[s.read]? with _ | ⟨k, found⟩ <;> rw [hout] at hs
  · dsimp only at hs
    split at hs
    · cases hs
      exact ⟨⟨h.handed, h.nodup, h.seen, h.read, fun hf => absurd rfl hf⟩, rfl⟩
    · cases hs
  · have hlt := (List.getElem?_eq_some_iff.1 hout).1
    split at hs
    · cases hs
      refine ⟨⟨h.handed, h.nodup, h.seen, hlt, fun _ => ?_⟩, rfl⟩
      simp only [Pc.owed] at hp ⊢
      omega
    · cases hs
      exact ⟨⟨h.handed, h.nodup, h.seen, hlt, fun hf => absurd rfl hf⟩, rfl⟩
    · next heq => cases heq

omit [DecidableEq κ] [DecidableEq ι] in
theorem Tallied.fetch (h : Tallied s) {f : Fetch.State κ ι}
    (hf : f.handed = s.fetch.handed ∧ s.fetch.out.length ≤ f.out.length) :
    Tallied { s with fetch := f } :=
  ⟨by rw [hf.1]; exact h.handed, h.nodup, h.seen, h.read.trans hf.2, h.pending⟩

/-- The step of the fetcher that an action takes. -/
def Action.inner (s : State κ ι) : Action κ ι → Option (Fetch.Action κ ι)
  | .fetch a => some a
  | .send => s.queue.head?.map .add
  | .finish => some .finish
  | _ => none

/-- A step keeps the tally, and is at most one step of the fetcher. -/
theorem Tallied.step (h : Tallied s) {a : Action κ ι} (hs : Pull.step cfg s a = some s') :
    Tallied s' ∧ (s'.fetch = s.fetch ∨
      ∃ b, a.inner s = some b ∧ Fetch.step cfg s.fetch b = some s'.fetch) := by
  cases a with
  | fetch b =>
    have hadd : ∀ k, b ≠ .add k := by rintro k rfl; cases hs
    have hb : ∃ f, Fetch.step cfg s.fetch b = some f ∧ { s with fetch := f } = s' := by
      cases b with
      | add | finish => cases hs
      | _ => exact Option.map_eq_some_iff.1 hs
    obtain ⟨f, hf, rfl⟩ := hb
    exact ⟨h.fetch (handed_out_of_move (move_of_step hf) hadd), .inr ⟨b, rfl, hf⟩⟩
  | want o => exact (h.want hs).imp_right .inl
  | send =>
    simp only [Pull.step] at hs
    split at hs
    · next k rest hq =>
      split at hs
      · next hc =>
        obtain ⟨f, hf, rfl⟩ := Option.map_eq_some_iff.1 hs
        refine ⟨?_, .inr ⟨.add k, by simp [Action.inner, hq], hf⟩⟩
        simp only [Fetch.step] at hf
        split at hf
        · cases hf
          refine ⟨?_, h.nodup, h.seen, h.read, h.pending⟩
          rw [← h.handed, hq, List.append_assoc]
          rfl
        · cases hf
      · cases hs
    · cases hs
  | receive kids =>
    simp only [Pull.step] at hs
    split at hs
    · next hc => exact (h.receive hc.1 hc.2 hs).imp_right .inl
    · cases hs
  | finish =>
    simp only [Pull.step] at hs
    split at hs
    · next hc =>
      obtain ⟨f, hf, rfl⟩ := Option.map_eq_some_iff.1 hs
      have hp := h.pending (by simp [hc.1])
      rw [hc.1] at hp
      have hf' := h.fetch (handed_out_of_move (move_of_step hf) (by simp))
      exact ⟨⟨hf'.handed, hf'.nodup, hf'.seen, hf'.read, fun _ => hp⟩, .inr ⟨.finish, rfl, hf⟩⟩
    · cases hs
  | fail =>
    cases hs
    exact ⟨⟨h.handed, h.nodup, h.seen, h.read, fun hf => absurd rfl hf⟩, .inl rfl⟩

/-- The replies of the fetcher's nodes have only records that were asked for, each at most once. -/
def solicited (s : State κ ι) (a : Action κ ι) : Bool :=
  (a.inner s).all (Fetch.solicited s.fetch)

omit [DecidableEq ι] in
theorem Tallied.received_all (h : Tallied s) (hf : Fetch.Inv cfg s.fetch)
    (hrun : s.fetch.pc ≠ .stopped) (hpc : s.pc = .looping) (hzero : s.pending = 0) :
    ∀ k ∈ s.queued, k ∈ s.received := by
  have hn : s.fetch.handed.Nodup := List.Nodup.of_append_left (h.handed ▸ h.nodup)
  obtain ⟨hout, hsub⟩ := (hf.conserved hn).outcomes hrun hn
  have hp := h.pending (by simp [hpc])
  rw [hpc, hzero] at hp
  have hnodup : s.received.Nodup := by
    rw [State.received, List.map_take]
    exact (List.take_sublist _ _).nodup hout
  have hqueued : s.received ⊆ s.queued := fun k hk => by
    rw [State.received, List.map_take] at hk
    rw [← h.handed]
    exact List.mem_append_left _ (hsub k (List.mem_of_mem_take hk))
  have hlen : s.queued.length ≤ s.received.length := by
    have := h.read
    simp only [State.received, List.length_map, List.length_take, Pc.owed] at hp ⊢
    omega
  intro k hk
  exact ((List.subperm_of_subset hnodup hqueued).perm_of_length_le hlen).mem_iff.2 hk

/-- Where every reply has only records that were asked for, each once: a fetcher that is not stopped
yields at most one outcome for a key and none for others, has yielded one for every key when its
results are closed, and closes them once no more keys come; and the pending count of a pull is zero
only when every key queued has been received. -/
theorem one_outcome (cfg : Config κ) (c : Client κ ι) (root : κ) :
    (∀ as s, Machine.run (Fetch.step cfg) (.start c) as = some s →
      Machine.Along (Fetch.step cfg) (fun s a => Fetch.solicited s a = true) (.start c) as →
      s.handed.Nodup → s.pc ≠ .stopped →
        (s.out.map Prod.fst).Nodup ∧ (∀ k ∈ s.out.map Prod.fst, k ∈ s.handed) ∧
          (s.pc = .returned → ∀ k ∈ s.handed, k ∈ s.out.map Prod.fst)) ∧
    (∀ (f : ℕ → Fetch.State κ ι) (a : ℕ → Fetch.Action κ ι), Fetch.Fair cfg f a → 0 < cfg.jobs →
      ∀ m, (f m).closed = true → ∃ n, (f n).pc = .returned) ∧
    ∀ as s, Machine.run (step cfg) (start c root) as = some s →
      Machine.Along (step cfg) (fun s a => solicited s a = true) (start c root) as →
      s.fetch.pc ≠ .stopped → s.pc = .looping → s.pending = 0 → ∀ k ∈ s.queued, k ∈ s.received := by
  refine ⟨fun as s hrun hok hn hpc => ?_, fun f a h hj m hm => h.returns hj hm,
    fun as s hrun hok hf hpc hzero => ?_⟩
  · have hinv : Fetch.Inv cfg s :=
      Machine.invariant_along Fetch.Inv.step as (.start cfg c) hok hrun
    obtain ⟨hnodup, hsub⟩ := (hinv.conserved hn).outcomes hpc hn
    refine ⟨hnodup, hsub, fun hret k hk => ?_⟩
    have hcount := hinv.conserved hn hpc k
    rw [hinv.booked.held_eq_nil hret, List.count_nil, Nat.zero_add] at hcount
    exact List.count_pos_iff.1 (hcount ▸ List.count_pos_iff.2 hk)
  · have h0 : Tallied (start c root) ∧ Fetch.Inv cfg (start c root).fetch :=
      ⟨⟨rfl, List.nodup_nil, List.nil_subset _, le_rfl, fun _ => ⟨rfl, le_rfl⟩⟩, .start cfg c⟩
    obtain ⟨hs, hinv⟩ : Tallied s ∧ Fetch.Inv cfg s.fetch := by
      refine Machine.invariant_along (P := fun s => Tallied s ∧ Fetch.Inv cfg s.fetch)
        (fun s a s' h ha hstep => ?_) as h0 hok hrun
      obtain ⟨hs', heq | ⟨b, hb, hfetch⟩⟩ := h.1.step hstep
      · exact ⟨hs', heq ▸ h.2⟩
      · rw [solicited, hb] at ha
        exact ⟨hs', h.2.step _ _ _ ha hfetch⟩
    exact hs.received_all hinv hf hpc hzero

/-- Key 7 is pulled, and the keys 8 and 9 below it, for which `recs` come. -/
def pulled (recs : List (Option ℕ)) : List (Action ℕ ℕ) :=
  let one := Fetch.pair
  [.want .lacking, .want .lacking, .send, .fetch (.loop one), .fetch (.loop one),
    .fetch (.loop one), .fetch (.pick 1), .fetch .hand, .fetch (.get 0 (.answer [some 7] true)),
    .fetch (.read 0), .fetch (.read 0), .fetch (.giveBack 0), .receive (some [8, 9]),
    .want .lacking, .want .lacking, .want .lacking, .send, .send, .fetch (.loop one),
    .fetch (.selectIn one), .fetch (.loop one), .fetch (.loop one), .fetch (.loop one),
    .fetch (.pick 1), .fetch .hand, .fetch (.get 0 (.answer recs true)), .fetch (.read 0),
    .fetch (.read 0), .receive (some []), .want .lacking, .receive (some []), .want .lacking]

/-- Of the keys 7 and 8 the first node has one, and the second node is asked for the other. -/
def fetched : List (Fetch.Action ℕ ℕ) :=
  let one := Fetch.pair
  [.add 7, .add 8, .finish, .loop one, .loop one, .loop one, .loop one, .loop one, .pick 1, .hand,
    .get 0 (.answer [some 7, none] true), .read 0, .read 0, .read 0, .giveBack 0, .giveBack 0,
    .loop one, .selectRetry one, .loop one, .loop one, .pick 2, .hand,
    .get 0 (.answer [some 8] true), .read 0, .read 0, .giveBack 0, .loop one, .selectDone,
    .loop one, .loop one, .loop one, .selectDone, .loop one, .loop one, .loop one]

/-- The fetcher after so many steps of the run. -/
def fetchedAt (n : ℕ) : Fetch.State ℕ ℕ :=
  (Machine.run (Fetch.step Fetch.eight) (.start Fetch.pair) (fetched.take n)).getD (.start Fetch.pair)

theorem fair_fetched : Fetch.Fair Fetch.eight fetchedAt
    fun i => fetched.getD i (.client (fetchedAt 35).client) := by
  have hend : ∀ i, fetchedAt (35 + i) = fetchedAt 35 := fun i => by
    rw [fetchedAt, List.take_of_length_le (show fetched.length ≤ 35 + i from Nat.le_add_right 35 i)]
    rfl
  have hact : ∀ i a, fetched.getD (35 + i) a = a := fun i a => by
    rw [List.getD, List.getElem?_eq_none (show fetched.length ≤ 35 + i from Nat.le_add_right 35 i)]
    rfl
  refine ⟨⟨_, rfl⟩, fun i => ?_, fun i => ?_, fun i => ?_, ⟨2, fun i k => ?_⟩, fun i h => ?_⟩ <;>
    obtain hi | ⟨d, rfl⟩ := (lt_or_ge i 35).imp_right Nat.exists_eq_add_of_le
  · interval_cases i <;> rfl
  · rw [hact, add_assoc, hend, hend]
    rfl
  · interval_cases i <;> rfl
  · rw [hact]
    rfl
  · interval_cases i <;> nofun
  · rw [hact]
    nofun
  · interval_cases i <;> exact le_of_eq rfl
  · rw [hend]
    exact le_of_eq rfl
  · exact ⟨max i 3, le_max_left _ _, by interval_cases i <;> rfl⟩
  · obtain ⟨b, s', hb, hs⟩ := h
    rw [hend] at hs
    cases b <;> first | exact Bool.noConfusion hb | cases hs

theorem one_outcome_pulled :
    ((fetchedAt 35).handed = [7, 8] ∧
      ∀ k ∈ (fetchedAt 35).handed, k ∈ (fetchedAt 35).out.map Prod.fst) ∧
    (∃ n, (fetchedAt n).pc = .returned) ∧
    ∃ s, Machine.run (step Fetch.eight) (start Fetch.pair 7) (pulled [some 8, some 9]) = some s ∧
      s.pc = .looping ∧ s.pending = 0 ∧ s.queued = [7, 8, 9] ∧ ∀ k ∈ s.queued, k ∈ s.received := by
  obtain ⟨h1, h2, h3⟩ := one_outcome Fetch.eight Fetch.pair 7
  refine ⟨⟨rfl, (h1 fetched (fetchedAt 35) rfl (by decide +kernel) (by decide +kernel) nofun).2.2 rfl⟩,
    h2 _ _ fair_fetched (by decide) 3 rfl, _, rfl, rfl, rfl, rfl, ?_⟩
  exact h3 (pulled [some 8, some 9]) _ rfl (by decide +kernel) (by decide +kernel) rfl rfl

/-- A node answers with the record of 8 twice: there are two outcomes for 8, and the count is zero
without one for 9. -/
theorem repeated_outcome :
    ∃ s, Machine.run (step Fetch.eight) (start Fetch.pair 7) (pulled [some 8, some 8]) = some s ∧
      s.fetch.pc ≠ .stopped ∧ s.fetch.handed = [7, 8, 9] ∧
      s.fetch.out = [(7, true), (8, true), (8, true)] ∧ s.pc = .looping ∧ s.pending = 0 ∧
      9 ∈ s.queued ∧ 9 ∉ s.received := by
  refine ⟨_, rfl, ?_⟩
  decide +kernel

end Dstore.Pull

import Dstore.Lib.Trace
import Dstore.Proofs.Fetch

/-!
# That a fetch comes to an end

While the loop has not ended, one of its steps or of a worker's can be taken (`exists_internal`),
and each brings down what is ahead of the keys (`ahead`). So a fetch whose steps keep being taken
ends.
-/

namespace Dstore.Fetch

variable {κ ι : Type} [DecidableEq κ] [DecidableEq ι]

/-- A step of the fetcher itself. -/
def Action.internal : Action κ ι → Bool
  | .add _ | .finish | .client _ | .cancel => false
  | _ => true

variable {s s' : State κ ι} {N : ℕ} {cfg : Config κ}

omit [DecidableEq κ] in
theorem mem_keys {acc : Acc κ ι} {x : ι × FetchKey κ ι} (h : x ∈ acc) : x.2 ∈ acc.keys x.1 :=
  List.mem_map.2 ⟨x, List.mem_filter.2 ⟨h, by simp⟩, rfl⟩

omit [DecidableEq κ] in
theorem exists_best (cfg : Config κ) {acc : Acc κ ι} (h : acc ≠ []) :
    ∃ id, acc.best cfg id = true := by
  by_cases hfull : ∃ x ∈ acc, acc.full cfg x.1 = true
  · obtain ⟨x, hx, hf⟩ := hfull
    exact ⟨x.1, by simp [Acc.best, hf, List.ne_nil_of_mem (mem_keys hx)]⟩
  · classical
    obtain ⟨x, hx, hmax⟩ := acc.toFinset.exists_max_image (fun y => (acc.keys y.1).length)
      (List.toFinset_nonempty_iff acc |>.2 h)
    simp only [List.mem_toFinset] at hx hmax
    refine ⟨x.1, ?_⟩
    simp only [not_exists, not_and, Bool.not_eq_true] at hfull
    simp only [Acc.best, Bool.and_eq_true, Bool.or_eq_true, List.all_eq_true, decide_eq_true_eq,
      Bool.not_eq_true', ne_eq]
    exact ⟨List.ne_nil_of_mem (mem_keys hx), .inr fun y hy => ⟨hfull y hy, hmax y hy⟩⟩

theorem exists_worker (hs : s.pc ≠ .stopped) (hr : s.running ≠ [])
    (hroom : s.retry.length < chanCap) :
    ∃ a s', a.internal = true ∧ solicited s a = true ∧ step cfg s a = some s' := by
  obtain ⟨j, l, hl⟩ := List.exists_cons_of_ne_nil hr
  have hi : s.running[0]? = some j := by rw [hl]; rfl
  rcases hj : j.phase with _ | ⟨recs, whole⟩ | todo
  · refine ⟨.get 0 .dialFails, ?_⟩
    simp [Action.internal, solicited, step, hs, State.get, hi, hj]
  · refine ⟨.read 0, ?_⟩
    rcases recs with _ | ⟨_ | k, recs⟩ <;>
      simp [Action.internal, solicited, step, hs, State.read, hi, hj]
  · refine ⟨.giveBack 0, ?_⟩
    rcases todo with _ | ⟨fk, todo⟩ <;>
      simp [Action.internal, solicited, step, hs, State.giveBack, hi, hj, hroom]

/-- A fetcher that is closed and not through has a step to take. -/
theorem exists_internal (h : Booked cfg s) (hj : 0 < cfg.jobs) (hc : s.closed = true)
    (hr : s.pc ≠ .returned) (hs : s.pc ≠ .stopped) :
    ∃ a s', a.internal = true ∧ solicited s a = true ∧ step cfg s a = some s' := by
  rcases hpc : s.pc with _ | _ | _ | job | _ | _ | _
  · refine ⟨.loop s.client, ?_⟩
    simp only [Action.internal, solicited, true_and, step, State.loop, hpc, hc]
    split
    · split <;> exact ⟨_, rfl⟩
    · exact ⟨_, rfl⟩
  · refine ⟨.loop s.client, ?_⟩
    simp only [Action.internal, solicited, true_and, step, State.loop, hpc]
    split <;> exact ⟨_, rfl⟩
  · by_cases hp : s.inflight < cfg.jobs ∧ s.acc ≠ []
    · obtain ⟨id, hid⟩ := exists_best cfg hp.2
      exact ⟨.pick id, _, rfl, rfl, if_pos ⟨hpc, hp.1, hid⟩⟩
    · refine ⟨.loop s.client, ?_⟩
      simp only [Action.internal, solicited, true_and, step, State.loop, hpc, hp, if_false]
      split <;> exact ⟨_, rfl⟩
  · have hi := h.inflight hs
    have hle := h.le
    simp only [hpc, Pc.busy] at hi
    refine ⟨.hand, ?_⟩
    simp only [Action.internal, solicited, true_and, step, State.hand, hpc]
    rw [if_pos (by omega)]
    exact ⟨_, rfl⟩
  · by_cases hopen : s.inOpen = true
    · refine ⟨.selectIn s.client, ?_⟩
      simp only [Action.internal, solicited, true_and, step, State.selectIn, hpc, hopen, hc,
        and_self, if_true]
      split <;> exact ⟨_, rfl⟩
    · by_cases hroom : s.retry.length < chanCap
      · have hi := h.inflight hs
        have := (h.awake hpc).resolve_left hopen
        simp only [hpc, Pc.busy] at hi
        by_cases hd : 0 < s.jobDone
        · exact ⟨.selectDone, _, rfl, rfl, if_pos ⟨hpc, hd⟩⟩
        · refine exists_worker hs (fun hnil => ?_) hroom
          simp only [hnil, List.length_nil] at hi
          omega
      · refine ⟨.selectRetry s.client, ?_⟩
        rcases hret : s.retry with _ | ⟨r, rest⟩
        · simp [hret, chanCap] at hroom
        · simp [Action.internal, solicited, step, State.selectRetry, hpc, hret]
  · exact absurd hpc hr
  · exact absurd hpc hs

/-- The attempts keys have left, where no read order has more than `N` nodes. -/
def cost (N : ℕ) (l : List (FetchKey κ ι)) : ℕ := (l.map fun fk => N + 1 - fk.attempt).sum

omit [DecidableEq κ] [DecidableEq ι] in
@[simp] theorem cost_nil (N : ℕ) : cost N ([] : List (FetchKey κ ι)) = 0 := rfl

omit [DecidableEq κ] [DecidableEq ι] in
@[simp] theorem cost_cons (N : ℕ) (fk : FetchKey κ ι) (l : List (FetchKey κ ι)) :
    cost N (fk :: l) = (N + 1 - fk.attempt) + cost N l := by
  simp [cost]

omit [DecidableEq κ] [DecidableEq ι] in
@[simp] theorem cost_append (N : ℕ) (l₁ l₂ : List (FetchKey κ ι)) :
    cost N (l₁ ++ l₂) = cost N l₁ + cost N l₂ := by
  simp [cost]

omit [DecidableEq κ] [DecidableEq ι] in
theorem cost_sublist {l₁ l₂ : List (FetchKey κ ι)} (h : l₁.Sublist l₂) :
    cost N l₁ ≤ cost N l₂ := by
  induction h with
  | slnil => rfl
  | cons fk _ ih => exact ih.trans (by simp)
  | cons_cons fk _ ih => simpa using ih

/-- How far a batch that is being sent has to go. -/
def Pc.way : Pc κ ι → ℕ
  | .sending job => 2 * job.keys.length + 2
  | _ => 0

/-- How far a batch that is not yet open has to go. -/
def Job.way (j : Job κ ι) : ℕ :=
  match j.phase with
  | .opening => j.keys.length + 1
  | _ => 0

/-- What a stream has still to deliver. -/
def Job.unread (j : Job κ ι) : ℕ :=
  match j.phase with
  | .reading recs _ => recs.length + 1
  | _ => 0

/-- How far the loop is from its `select`. -/
def Pc.rank : Pc κ ι → ℕ
  | .taking => 4
  | .draining => 3
  | .dispatching => 2
  | .selecting => 1
  | _ => 0

namespace State

variable (N : ℕ) (s : State κ ι)

/-- The tries that are left for all keys together. -/
def attempts : ℕ :=
  s.input.length * (N + 1) + cost N (s.acc.map (·.2)) + cost N s.pc.left +
    cost N (s.running.flatMap Job.left) + cost N s.retry +
    (if s.refreshed then 0 else N + 1) + if s.inOpen then 1 else 0

/-- How far the keys are from a stream. -/
def way : ℕ :=
  6 * (s.input.length + s.retry.length) + 5 * s.acc.length + s.pc.way + (s.running.map Job.way).sum

/-- What the open streams have still to deliver. -/
def unread : ℕ := (s.running.map Job.unread).sum

/-- The batches that run, or have returned and are not yet counted. -/
def batches : ℕ := 2 * s.running.length + s.jobDone

/-- What the fetcher has ahead of it, the weightiest first. -/
def ahead : ℕ ×ₗ ℕ ×ₗ ℕ ×ₗ ℕ ×ₗ ℕ :=
  toLex (s.attempts N, toLex (s.way, toLex (s.unread, toLex (s.batches, s.pc.rank))))

end State

/-- No key is past `N` attempts, and none that is at a node at its `N`-th. -/
structure Near (N : ℕ) (s : State κ ι) : Prop where
  left : ∀ fk ∈ s.acc.map (·.2) ++ s.pc.left ++ s.running.flatMap Job.left, fk.attempt < N
  retry : ∀ fk ∈ s.retry, fk.attempt ≤ N

theorem Near.worker (h : Near N s) {l₁ l₂ : List (Job κ ι)} {j j' : Job κ ι}
    (hr : s.running = l₁ ++ j :: l₂) (hr' : s'.running = l₁ ++ j' :: l₂)
    (hrest : (s'.acc, s'.pc) = (s.acc, s.pc)) (hj : ∀ fk ∈ j'.left, fk ∈ j.left)
    (hretry : ∀ fk ∈ s'.retry, fk.attempt ≤ N) : Near N s' := by
  simp only [Prod.mk.injEq] at hrest
  refine ⟨fun fk hfk => h.left fk ?_, hretry⟩
  simp only [hrest, hr', hr, List.flatMap_append, List.flatMap_cons, List.mem_append] at hfk ⊢
  have := hj fk
  tauto

/-- A key that is routed has tries left. -/
theorem Near.route (h : Near N s) (fk : FetchKey κ ι) (c : Client κ ι)
    (hs : ∀ k, (s.client.readOrder k).length ≤ N)
    (hs' : ∀ k, ((s.route fk c).client.readOrder k).length ≤ N) : Near N (s.route fk c) := by
  refine ⟨fun x hx => ?_, by simpa using h.retry⟩
  suffices ∀ order : List ι, ∀ y : FetchKey κ ι, order.length ≤ N →
      ∀ s₁ : State κ ι, s.route fk c = s₁.place y order → s₁.acc = s.acc → x.attempt < N by
    rcases route_eq s fk c with ⟨_, heq⟩ | ⟨_, heq⟩
    · exact this _ _ (hs _) _ heq rfl
    · refine this _ _ ?_ _ heq rfl
      have hc : (s.route fk c).client = c := by
        rw [heq]
        rcases place_cases { s with refreshed := true, client := c } { fk with attempt := 0 }
          (c.readOrder fk.key) with ⟨_, h⟩ | ⟨_, _, h⟩ <;> rw [h]
      simpa [hc] using hs' fk.key
  intro order y hlen s₁ heq hacc
  rw [route_pc, route_running, heq] at hx
  rcases place_cases s₁ y order with ⟨_, hp⟩ | ⟨node, hnode, hp⟩ <;> rw [hp] at hx
  · exact h.left x (by simpa [hacc] using hx)
  · simp only [hacc, List.map_append, List.map_cons, List.map_nil, List.mem_append,
      List.mem_singleton] at hx
    rcases hx with ((hx | rfl) | hx) | hx
    · exact h.left x (by simp [hx])
    · obtain ⟨hlt, _⟩ := List.getElem?_eq_some_iff.1 hnode
      exact hlt.trans_le hlen
    · exact h.left x (by simp [hx])
    · exact h.left x (by simp only [List.mem_append]; exact .inr hx)

/-- Every move keeps the keys within their tries. -/
theorem Near.move {a : Action κ ι} (h : Near N s) (hs : ∀ k, (s.client.readOrder k).length ≤ N)
    (hs' : ∀ k, (s'.client.readOrder k).length ≤ N) (hasked : Asked s) (hm : Move cfg s a s') :
    Near N s' := by
  cases hm with
  | add | finish | client => exact ⟨h.left, h.retry⟩
  | cancel | noMore | drain | drained | idle | ends | done =>
    refine ⟨fun fk hfk => h.left fk ?_, h.retry⟩
    simp only [Pc.left, List.append_nil, List.mem_append] at hfk ⊢
    tauto
  | @routeIn _ c k rest ha hpc =>
    have hbefore : Near N { s with input := rest, pc := .taking } := by
      refine ⟨fun fk hfk => h.left fk ?_, h.retry⟩
      simp only [Pc.left, List.append_nil, List.mem_append] at hfk ⊢
      tauto
    exact hbefore.route _ c hs hs'
  | @routeRetry _ c r rest pc ha hpc hr =>
    have hbefore : Near N { s with retry := rest, pc := pc } := by
      refine ⟨fun fk hfk => h.left fk ?_, fun fk hfk => h.retry fk (by simp [hr, hfk])⟩
      rcases hpc with ⟨_, rfl⟩ | ⟨_, rfl⟩ <;>
        simp only [Pc.left, List.append_nil, List.mem_append] at hfk ⊢ <;> tauto
    exact hbefore.route _ c hs hs'
  | pick id hpc hj hb =>
    have hsub : ∀ fk ∈ s.acc.keys id, fk ∈ s.acc.map (·.2) := fun fk hfk =>
      List.map_subset _ (List.filter_subset_self _) hfk
    refine ⟨fun fk hfk => h.left fk ?_, h.retry⟩
    simp only [Pc.left, List.map_append, List.map_map, Function.comp_def, List.map_id',
      List.mem_append] at hfk ⊢
    rcases hfk with ((hfk | hfk) | hfk) | hfk
    · exact .inl (.inl (List.map_subset _ (List.filter_subset_self _) hfk))
    · exact .inl (.inl (hsub fk (List.mem_of_mem_drop hfk)))
    · exact .inl (.inl (hsub fk ((batch_isPrefix cfg _ 0 0).subset hfk)))
    · exact .inr hfk
  | @hand job hpc =>
    refine ⟨fun fk hfk => h.left fk ?_, h.retry⟩
    have hleft : job.left = job.keys := by simp only [Job.left, (hasked.sending job hpc).1]
    simp only [hpc, Pc.left, List.flatMap_append, List.flatMap_cons, List.flatMap_nil, hleft,
      List.append_nil, List.mem_append] at hfk ⊢
    tauto
  | unsent i c hr hj he => exact h.worker hr rfl rfl (by simp [Job.left, hj]) h.retry
  | refused i b c hr hj => exact h.worker hr rfl rfl (by simp [Job.left, hj]) h.retry
  | answered i recs whole hi hr hj =>
    refine h.worker hr rfl rfl (fun fk hfk => ?_) h.retry
    simp only [Job.left, hj] at hfk ⊢
    exact (List.mem_filter.1 hfk).1
  | record i hr hj =>
    refine h.worker hr rfl rfl (fun fk hfk => ?_) h.retry
    simp only [Job.left, hj, List.mem_filter, List.mem_cons, decide_eq_true_eq, not_or] at hfk ⊢
    exact ⟨hfk.1, hfk.2.2⟩
  | corrupt i hr hj => exact h.worker hr rfl rfl (by simp [Job.left, hj]) h.retry
  | ended i c hr hj => exact h.worker hr rfl rfl (by simp [Job.left, hj]) h.retry
  | @back i fk todo l₁ l₂ j hr hj =>
    refine h.worker hr rfl rfl (by simp [Job.left, hj]; tauto) fun x hx => ?_
    rcases List.mem_append.1 hx with hx | hx
    · exact h.retry x hx
    · rw [List.mem_singleton.1 hx]
      exact h.left fk (by simp [hr, Job.left, hj])
  | finished i hr hj =>
    refine ⟨fun fk hfk => h.left fk ?_, h.retry⟩
    simp only [hr, List.flatMap_append, List.flatMap_cons, List.mem_append] at hfk ⊢
    tauto

omit [DecidableEq ι] in
/-- A batch that goes on is nearer to its end. -/
theorem ahead_worker {l₁ l₂ : List (Job κ ι)} {j j' : Job κ ι} (hr : s.running = l₁ ++ j :: l₂)
    (hr' : s'.running = l₁ ++ j' :: l₂)
    (hrest : (s'.input, s'.acc, s'.pc, s'.retry, s'.refreshed, s'.inOpen) =
      (s.input, s.acc, s.pc, s.retry, s.refreshed, s.inOpen))
    (hcost : cost N j'.left ≤ cost N j.left)
    (hway : j'.way < j.way ∨ j'.way = j.way ∧ j'.unread < j.unread) :
    s'.ahead N < s.ahead N := by
  simp only [Prod.mk.injEq] at hrest
  obtain ⟨h1, h2, h3, h4, h5, h6⟩ := hrest
  refine Machine.lex_lt ?_ fun _ => ?_
  · simp only [State.attempts, h1, h2, h3, h4, h5, h6, hr, hr', List.flatMap_append,
      List.flatMap_cons, cost_append]
    omega
  · rcases hway with hway | ⟨hway, hread⟩
    · refine Machine.lex_lt (le_of_lt ?_) fun heq => absurd heq (ne_of_lt ?_) <;>
        simp only [State.way, h1, h2, h3, h4, hr, hr', List.map_append, List.map_cons,
          List.sum_append, List.sum_cons] <;> omega
    · refine Machine.lex_lt (le_of_eq ?_) fun _ => Machine.lex_lt (le_of_lt ?_)
        fun heq => absurd heq (ne_of_lt ?_)
      · simp only [State.way, h1, h2, h3, h4, hr, hr', List.map_append, List.map_cons,
          List.sum_append, List.sum_cons, hway]
      all_goals
        simp only [State.unread, hr, hr', List.map_append, List.map_cons, List.sum_append,
          List.sum_cons]
        omega

/-- A key that is routed costs a try, or goes its way. -/
theorem ahead_route (s : State κ ι) (fk : FetchKey κ ι) (c : Client κ ι) (hfk : fk.attempt ≤ N) :
    (s.route fk c).attempts N < s.attempts N + (N + 1 - fk.attempt) ∨
      (s.route fk c).attempts N = s.attempts N + (N + 1 - fk.attempt) ∧
        (s.route fk c).way = s.way + 5 := by
  rcases route_eq s fk c with ⟨_, h⟩ | ⟨href, h⟩ <;> rw [h]
  · rcases place_cases s fk (s.client.readOrder fk.key) with ⟨_, h⟩ | ⟨_, _, h⟩ <;> rw [h]
    · refine .inl ?_
      simp only [State.attempts]
      omega
    · refine .inr ?_
      simp only [State.attempts, State.way, List.map_append, List.map_cons, List.map_nil,
        cost_append, cost_cons, cost_nil, List.length_append, List.length_singleton]
      omega
  · have hnot : s.refreshed = false := by
      simp only [State.refreshes, Bool.and_eq_true, Bool.not_eq_true'] at href
      exact href.2
    refine .inl ?_
    rcases place_cases { s with refreshed := true, client := c } { fk with attempt := 0 }
      (c.readOrder fk.key) with ⟨_, h⟩ | ⟨_, _, h⟩ <;> rw [h] <;>
      simp only [State.attempts, hnot, List.map_append, List.map_cons, List.map_nil, cost_append,
        cost_cons, cost_nil, Bool.false_eq_true, if_true, if_false] <;> omega

theorem ahead_routed {s s₁ : State κ ι} {fk : FetchKey κ ι} {c : Client κ ι} (hfk : fk.attempt ≤ N)
    (hattempts : s₁.attempts N + (N + 1 - fk.attempt) = s.attempts N) (hway : s₁.way + 6 = s.way) :
    (s₁.route fk c).ahead N < s.ahead N := by
  rcases ahead_route s₁ fk c hfk with h | ⟨h, hw⟩
  · exact Machine.lex_lt (by omega) fun heq => by omega
  · exact Machine.lex_lt (by omega) fun _ => Machine.lex_lt (by omega) fun heq => by omega

omit [DecidableEq ι] in
theorem ahead_loop
    (hrest : (s'.input, s'.acc, s'.running, s'.retry, s'.refreshed, s'.inOpen, s'.jobDone) =
      (s.input, s.acc, s.running, s.retry, s.refreshed, s.inOpen, s.jobDone))
    (hleft : s'.pc.left = s.pc.left) (hway : s'.pc.way = s.pc.way) (hrank : s'.pc.rank < s.pc.rank) :
    s'.ahead N < s.ahead N := by
  simp only [Prod.mk.injEq] at hrest
  obtain ⟨h1, h2, h3, h4, h5, h6, h7⟩ := hrest
  have hattempts : s'.attempts N = s.attempts N := by
    simp only [State.attempts, h1, h2, h3, h4, h5, h6, hleft]
  have hway : s'.way = s.way := by simp only [State.way, h1, h2, h3, h4, hway]
  have hunread : s'.unread = s.unread := by simp only [State.unread, h3]
  have hbatches : s'.batches = s.batches := by simp only [State.batches, h3, h7]
  exact Machine.lex_lt hattempts.le fun _ => Machine.lex_lt hway.le fun _ =>
    Machine.lex_lt hunread.le fun _ => Machine.lex_lt hbatches.le fun _ => hrank

omit [DecidableEq κ] in
/-- A batch takes at least one key, and leaves the others. -/
theorem length_pick (cfg : Config κ) {acc : Acc κ ι} {id : ι} (h : acc.best cfg id = true) :
    (acc.filter (·.1 ≠ id) ++
        ((acc.keys id).drop (batch cfg 0 0 (acc.keys id)).length).map (id, ·)).length +
      (batch cfg 0 0 (acc.keys id)).length = acc.length ∧
      0 < (batch cfg 0 0 (acc.keys id)).length := by
  have hlen := (List.filter_append_perm (fun x => decide (x.1 = id)) acc).length_eq
  have hle := (batch_isPrefix cfg (acc.keys id) 0 0).length_le
  simp only [List.length_append, List.length_map, List.length_drop, Acc.keys, ne_eq,
    decide_not] at hlen hle ⊢
  refine ⟨by omega, ?_⟩
  have hne : acc.keys id ≠ [] := by
    simp only [Acc.best, Bool.and_eq_true, decide_eq_true_eq] at h
    exact h.1
  obtain ⟨fk, l, hl⟩ := List.exists_cons_of_ne_nil hne
  rw [Acc.keys] at hl
  rw [hl]
  simp [batch, getBatchKeys]

omit [DecidableEq κ] [DecidableEq ι] in
theorem cost_perm {l₁ l₂ : List (FetchKey κ ι)} (h : l₁.Perm l₂) :
    cost N l₁ = cost N l₂ := (h.map _).sum_eq

omit [DecidableEq κ] in
theorem cost_pick (N : ℕ) (cfg : Config κ) (acc : Acc κ ι) (id : ι) :
    cost N ((acc.filter (·.1 ≠ id) ++
        ((acc.keys id).drop (batch cfg 0 0 (acc.keys id)).length).map (id, ·)).map (·.2)) +
      cost N (batch cfg 0 0 (acc.keys id)) = cost N (acc.map (·.2)) := by
  have hbatch : batch cfg 0 0 (acc.keys id) ++
      (acc.keys id).drop (batch cfg 0 0 (acc.keys id)).length = acc.keys id :=
    List.prefix_iff_eq_append.1 (batch_isPrefix cfg _ 0 0)
  have hkeys := congrArg (cost N) hbatch
  have hperm := cost_perm (N := N)
    ((List.filter_append_perm (fun x => decide (x.1 = id)) acc).map (·.2))
  simp only [List.map_append, cost_append, List.map_map, Acc.keys, Function.comp_def,
    List.map_id', ne_eq, decide_not] at hkeys hperm ⊢
  omega

/-- Every internal step brings the fetcher nearer to its end. -/
theorem ahead_lt {a : Action κ ι} (h : Near N s) (hasked : Asked s) (ha : a.internal = true)
    (hm : Move cfg s a s') :
    s'.ahead N < s.ahead N := by
  cases hm with
  | add | finish | client | cancel => cases ha
  | noMore hpc hopen =>
    refine Machine.lex_lt (le_of_lt ?_) fun heq => absurd heq (ne_of_lt ?_) <;>
      rcases hpc with hpc | hpc <;>
      simp [State.attempts, hpc, hopen, Pc.left]
  | drain c hpc =>
    exact ahead_loop rfl (by simp [hpc, Pc.left]) (by simp [hpc, Pc.way]) (by simp [hpc, Pc.rank])
  | drained c hpc =>
    exact ahead_loop rfl (by simp [hpc, Pc.left]) (by simp [hpc, Pc.way]) (by simp [hpc, Pc.rank])
  | idle c hpc =>
    exact ahead_loop rfl (by simp [hpc, Pc.left]) (by simp [hpc, Pc.way]) (by simp [hpc, Pc.rank])
  | ends c hpc =>
    exact ahead_loop rfl (by simp [hpc, Pc.left]) (by simp [hpc, Pc.way]) (by simp [hpc, Pc.rank])
  | done hpc hd =>
    refine Machine.lex_lt (le_of_eq ?_) fun _ => Machine.lex_lt (le_of_eq ?_) fun _ =>
      Machine.lex_lt le_rfl fun _ => Machine.lex_lt (le_of_lt ?_) fun heq => absurd heq (ne_of_lt ?_)
    · simp [State.attempts, hpc, Pc.left]
    · simp [State.way, hpc, Pc.way]
    all_goals
      simp only [State.batches]
      omega
  | @routeIn _ c k rest _ hpc hopen hin =>
    refine ahead_routed (Nat.zero_le N) ?_ ?_ <;> rcases hpc with hpc | hpc <;>
      simp only [State.attempts, State.way, hpc, hin, Pc.left, Pc.way, List.length_cons,
        Nat.add_mul, one_mul, Nat.sub_zero, cost_nil] <;> omega
  | @routeRetry _ c r rest pc _ hpc hr =>
    refine ahead_routed (h.retry r (by simp [hr])) ?_ ?_ <;>
      rcases hpc with ⟨hpc, rfl⟩ | ⟨hpc, rfl⟩ <;>
      simp only [State.attempts, State.way, hpc, hr, Pc.left, Pc.way, List.length_cons,
        cost_cons, cost_nil] <;> omega
  | pick id hpc hj hb =>
    obtain ⟨hlen, hpos⟩ := length_pick cfg hb
    have hcost := cost_pick N cfg s.acc id
    refine Machine.lex_lt (le_of_eq ?_) fun _ => Machine.lex_lt (le_of_lt ?_)
      fun heq => absurd heq (ne_of_lt ?_)
    · simp only [State.attempts, hpc, Pc.left, cost_nil]
      omega
    all_goals
      simp only [State.way, hpc, Pc.way]
      omega
  | @hand job hpc =>
    have hphase := (hasked.sending job hpc).1
    refine Machine.lex_lt (le_of_eq ?_) fun _ => Machine.lex_lt (le_of_lt ?_)
      fun heq => absurd heq (ne_of_lt ?_)
    · simp only [State.attempts, hpc, Pc.left, cost_nil, List.flatMap_append, List.flatMap_cons,
        List.flatMap_nil, cost_append, Job.left, hphase]
      omega
    all_goals
      simp only [State.way, hpc, Pc.way, List.map_append, List.map_cons, List.map_nil,
        List.sum_append, List.sum_cons, List.sum_nil, Job.way, hphase]
      omega
  | unsent i c hr hj he =>
    exact ahead_worker hr rfl rfl (by simp [Job.left, hj]) (.inl (by simp [Job.way, hj]))
  | refused i b c hr hj =>
    exact ahead_worker hr rfl rfl (by simp [Job.left, hj]) (.inl (by simp [Job.way, hj]))
  | answered i recs whole hi hr hj =>
    refine ahead_worker hr rfl rfl ?_ (.inl (by simp [Job.way, hj]))
    simp only [Job.left, hj]
    exact cost_sublist List.filter_sublist
  | record i hr hj =>
    refine ahead_worker hr rfl rfl (cost_sublist ?_)
      (.inr ⟨by simp [Job.way, hj], by simp [Job.unread, hj]⟩)
    simp only [Job.left, hj]
    exact List.monotone_filter_right _ fun fk hfk => by simp_all
  | corrupt i hr hj =>
    exact ahead_worker hr rfl rfl (by simp [Job.left, hj])
      (.inr ⟨by simp [Job.way, hj], by simp [Job.unread, hj]⟩)
  | ended i c hr hj =>
    exact ahead_worker hr rfl rfl (by simp [Job.left, hj])
      (.inr ⟨by simp [Job.way, hj], by simp [Job.unread, hj]⟩)
  | @back i fk todo l₁ l₂ j hr hj =>
    have hfk : fk.attempt < N := h.left fk (by simp [hr, Job.left, hj])
    refine Machine.lex_lt (le_of_lt ?_) fun heq => absurd heq (ne_of_lt ?_) <;>
      simp only [State.attempts, hr, List.flatMap_append, List.flatMap_cons, cost_append,
        Job.left, hj, cost_cons, cost_nil] <;> omega
  | finished i hr hj =>
    refine Machine.lex_lt (le_of_eq ?_) fun _ => Machine.lex_lt (le_of_eq ?_) fun _ =>
      Machine.lex_lt (le_of_eq ?_) fun _ => Machine.lex_lt (le_of_lt ?_)
        fun heq => absurd heq (ne_of_lt ?_)
    · simp [State.attempts, hr, Job.left, hj]
    · simp [State.way, hr, Job.way, hj]
    · simp [State.unread, hr, Job.unread, hj]
    all_goals
      simp only [State.batches, hr, List.length_append, List.length_cons]
      omega

omit [DecidableEq ι] in
theorem exists_near (s : State κ ι) (M : ℕ) : ∃ N, M ≤ N ∧ Near N s := by
  let l := s.acc.map (·.2) ++ s.pc.left ++ s.running.flatMap Job.left ++ s.retry
  obtain ⟨B, hB⟩ : ∃ B, ∀ fk ∈ l, fk.attempt ≤ B :=
    ⟨(l.map FetchKey.attempt).sum, fun fk hfk => List.le_sum_of_mem (List.mem_map_of_mem hfk)⟩
  refine ⟨M + B + 1, by omega, fun fk hfk => ?_, fun fk hfk => ?_⟩
  · have := hB fk (List.mem_append_left _ hfk)
    omega
  · have := hB fk (List.mem_append_right _ hfk)
    omega

omit [DecidableEq ι] in
theorem ahead_client (N : ℕ) (s : State κ ι) (c : Client κ ι) :
    { s with client := c }.ahead N = s.ahead N := rfl

theorem eq_of_not_internal {a : Action κ ι} (hc : s.closed = true) (ha : a ≠ .cancel)
    (hi : ¬ a.internal = true) (h : step cfg s a = some s') : ∃ c, s' = { s with client := c } := by
  cases a with
  | add k => simp [step, hc] at h
  | finish => simp [step, hc] at h
  | client c => exact ⟨c, (Option.some.inj h).symm⟩
  | cancel => exact absurd rfl ha
  | _ => exact absurd rfl hi

/-- An endless run from a fetcher's start in which every reply is solicited, nobody stops it, the
read orders stay within a bound, and a step that can be taken is not put off for ever. -/
structure Fair (cfg : Config κ) (f : ℕ → State κ ι) (a : ℕ → Action κ ι) : Prop where
  start : ∃ c, f 0 = State.start c
  trace : Machine.Trace (step cfg) f a
  solicited : ∀ i, solicited (f i) (a i) = true
  running : ∀ i, a i ≠ .cancel
  bounded : ∃ N, ∀ i k, ((f i).client.readOrder k).length ≤ N
  fair : ∀ i, (∃ b s', b.internal = true ∧ step cfg (f i) b = some s') →
    ∃ j, i ≤ j ∧ (a j).internal = true

namespace Fair

variable {cfg : Config κ} {f : ℕ → State κ ι} {a : ℕ → Action κ ι}

theorem inv (h : Fair cfg f a) (i : ℕ) : Inv cfg (f i) := by
  obtain ⟨c, hc⟩ := h.start
  exact h.trace.invariant (Inv cfg) (fun s b => Fetch.solicited s b = true) Inv.step h.solicited
    (hc ▸ Inv.start cfg c) i

theorem not_stopped (h : Fair cfg f a) (i : ℕ) : (f i).pc ≠ .stopped := by
  obtain ⟨c, hc⟩ := h.start
  refine h.trace.invariant (fun s => s.pc ≠ .stopped) (fun _ b => b ≠ .cancel) ?_ h.running
    (by simp [hc, State.start]) i
  intro s b s' hs hb hstep
  cases move_of_step hstep with
  | cancel => exact absurd rfl hb
  | routeRetry _ _ hpc => rcases hpc with ⟨_, rfl⟩ | ⟨_, rfl⟩ <;> simp
  | routeIn => simp
  | add | finish | client | unsent | refused | answered | record | corrupt | ended | back |
      finished => exact hs
  | _ => simp

/-- A fair run of a closed fetcher returns. -/
theorem returns (h : Fair cfg f a) (hj : 0 < cfg.jobs) {m : ℕ} (hm : (f m).closed = true) :
    ∃ n, (f n).pc = .returned := by
  obtain ⟨M, hM⟩ := h.bounded
  obtain ⟨N, hMN, hnear⟩ := exists_near (f m) M
  have hshift := h.trace.shift m
  have hnext : ∀ i, step cfg (f (m + i)) (a (m + i)) = some (f (m + (i + 1))) := hshift
  have hclosed : ∀ i, (f (m + i)).closed = true := by
    refine hshift.invariant (fun s => s.closed = true) (fun _ _ => True) ?_ (fun _ => trivial) hm
    intro s b s' hs _ hstep
    cases move_of_step hstep with
    | finish => rfl
    | routeIn | routeRetry => simpa using hs
    | _ => exact hs
  have hbound : ∀ i k, ((f (m + i)).client.readOrder k).length ≤ N := fun i k =>
    (hM _ k).trans hMN
  have hnear : ∀ i, Near N (f (m + i)) := by
    intro i
    induction i with
    | zero => exact hnear
    | succ i ih =>
      exact ih.move (hbound i) (hbound (i + 1)) (h.inv _).asked (move_of_step (hnext i))
  have hlt : ∀ i, (a (m + i)).internal = true → (f (m + (i + 1))).ahead N < (f (m + i)).ahead N :=
    fun i hi => ahead_lt (hnear i) (h.inv _).asked hi (move_of_step (hnext i))
  have hle : ∀ i, (f (m + (i + 1))).ahead N ≤ (f (m + i)).ahead N := by
    intro i
    by_cases hi : (a (m + i)).internal = true
    · exact (hlt i hi).le
    · -- Only the client can have changed.
      obtain ⟨c, hc⟩ := eq_of_not_internal (hclosed i) (h.running _) hi (hnext i)
      rw [hc, ahead_client]
  obtain ⟨n, hn⟩ := Machine.Trace.quiet (f := fun i => f (m + i)) (a := fun i => a (m + i))
    (State.ahead N) (·.internal = true) hle hlt
  by_contra hnever
  rw [not_exists] at hnever
  obtain ⟨b, s', hb, _, hs'⟩ := exists_internal (h.inv (m + n)).booked hj (hclosed n)
    (hnever _) (h.not_stopped _)
  obtain ⟨j, hj, haj⟩ := h.fair (m + n) ⟨b, s', hb, hs'⟩
  refine hn (j - m) (by omega) ?_
  rwa [Nat.add_sub_cancel' (by omega)]

end Fair

end Dstore.Fetch

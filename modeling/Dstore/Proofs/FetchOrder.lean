import Dstore.Proofs.Fetch

/-!
# Keys that are found nowhere

A key that is given back goes to the next position of its read order, as the order is then. Where
the nodes before that position were before it in the order the key was last routed by, and every
get is sent, all of them have been sent a get for the key (`Sought`). But a failure moves the node
that was tried behind another one, which the key then passes over.
-/

namespace Dstore.Fetch

variable {κ ι : Type}

/-- Every node the key has been routed past was sent a get for it. -/
def Past (sent : List (ι × κ)) (fk : FetchKey κ ι) : Prop :=
  ∀ o ∈ fk.via.take fk.attempt, (o, fk.key) ∈ sent

/-- The key is to be asked of `id`, and was asked of all before. -/
def Due (sent : List (ι × κ)) (id : ι) (fk : FetchKey κ ι) : Prop :=
  fk.via[fk.attempt]? = some id ∧ Past sent fk

/-- Every key of the batch is due at its node. -/
structure Job.Due (sent : List (ι × κ)) (j : Job κ ι) : Prop where
  keys : ∀ fk ∈ j.keys, Fetch.Due sent j.node fk
  sent : j.phase ≠ .opening → ∀ fk ∈ j.keys, (j.node, fk.key) ∈ sent
  todo : ∀ todo, j.phase = .returning todo → todo ⊆ j.keys

/-- Every key in the fetcher has been asked for in the order of its owners. -/
structure Sought (s : State κ ι) : Prop where
  acc : ∀ x ∈ s.acc, Due s.sent x.1 x.2
  sending : ∀ job, s.pc = .sending job → job.Due s.sent
  running : ∀ j ∈ s.running, j.Due s.sent
  retry : ∀ fk ∈ s.retry, Past s.sent fk

section Sent

variable {sent sent' : List (ι × κ)} {s s' : State κ ι} {fk : FetchKey κ ι} {j j' : Job κ ι}

theorem Past.mono (h : Past sent fk) (hs : sent ⊆ sent') : Past sent' fk :=
  fun o ho => hs (h o ho)

theorem Due.mono {id : ι} (h : Due sent id fk) (hs : sent ⊆ sent') : Due sent' id fk :=
  ⟨h.1, h.2.mono hs⟩

theorem Job.Due.mono (h : j.Due sent) (hs : sent ⊆ sent') : j.Due sent' :=
  ⟨fun fk hfk => (h.keys fk hfk).mono hs, fun hp fk hfk => hs (h.sent hp fk hfk), h.todo⟩

theorem Due.next {id : ι} (h : Due sent id fk) (hs : (id, fk.key) ∈ sent) :
    Past sent { fk with attempt := fk.attempt + 1 } := by
  intro o ho
  rw [List.take_add_one, h.1] at ho
  rcases List.mem_append.1 ho with ho | ho
  · exact h.2 o ho
  · rw [Option.toList_some, List.mem_singleton] at ho
    exact ho ▸ hs

theorem Sought.worker (h : Sought s) {l₁ l₂ : List (Job κ ι)} (hr : s.running = l₁ ++ j :: l₂)
    (hr' : s'.running = l₁ ++ j' :: l₂) (hpc : s'.pc = s.pc) (hacc : s'.acc = s.acc)
    (hs : s.sent ⊆ s'.sent) (hj : j.Due s.sent → j'.Due s'.sent)
    (hretry : ∀ fk ∈ s'.retry, Past s'.sent fk) : Sought s' := by
  refine ⟨fun x hx => (h.acc x (hacc ▸ hx)).mono hs,
    fun job hjob => (h.sending job (hpc ▸ hjob)).mono hs, fun x hx => ?_, hretry⟩
  rw [hr'] at hx
  rcases List.mem_append.1 hx with hx | hx
  · exact (h.running x (by simp [hr, hx])).mono hs
  · rcases List.mem_cons.1 hx with rfl | hx
    · exact hj (h.running j (by simp [hr]))
    · exact (h.running x (by simp [hr, hx])).mono hs

theorem Sought.get (h : Sought s) {l₁ l₂ : List (Job κ ι)} (hr : s.running = l₁ ++ j :: l₂)
    (c : Client κ ι) {ph : Phase κ ι} (hph : ∀ todo, ph = .returning todo → todo ⊆ j.keys) :
    Sought { s with
      client := c
      running := l₁ ++ { j with phase := ph } :: l₂
      sent := s.sent ++ j.keys.map fun fk => (j.node, fk.key) } := by
  have hsub : s.sent ⊆ s.sent ++ j.keys.map fun fk => (j.node, fk.key) :=
    List.subset_append_left _ _
  refine h.worker hr rfl rfl rfl hsub (fun hok => ?_) fun fk hfk => (h.retry fk hfk).mono hsub
  exact ⟨fun fk hfk => (hok.keys fk hfk).mono hsub,
    fun _ fk hfk => List.mem_append_right _ (List.mem_map_of_mem hfk), hph⟩

theorem Sought.place (h : Sought s) (fk : FetchKey κ ι) (order : List ι)
    (hpast : ∀ o ∈ order.take fk.attempt, (o, fk.key) ∈ s.sent) :
    Sought (s.place fk order) ∧
      ∀ k, (s.place fk order).out = s.out ++ [(k, false)] → ∀ o ∈ order, (o, k) ∈ s.sent := by
  rcases place_cases s fk order with ⟨hlen, heq⟩ | ⟨node, hnode, heq⟩ <;> rw [heq]
  · refine ⟨⟨h.acc, h.sending, h.running, h.retry⟩, fun k hk o ho => ?_⟩
    rw [List.take_of_length_le hlen] at hpast
    simp only [List.append_cancel_left_eq, List.cons.injEq, Prod.mk.injEq, and_true] at hk
    exact hk ▸ hpast o ho
  · refine ⟨⟨fun x hx => ?_, h.sending, h.running, h.retry⟩, fun k hk => by simp at hk⟩
    rcases List.mem_append.1 hx with hx | hx
    · exact h.acc x hx
    · rw [List.mem_singleton.1 hx]
      exact ⟨hnode, hpast⟩

/-- A key is asked of its next owner, or given up when all were asked. -/
theorem Sought.route [DecidableEq ι] (h : Sought s) (c : Client κ ι)
    (hpast : s.refreshes fk = false →
      ∀ o ∈ (s.client.readOrder fk.key).take fk.attempt, (o, fk.key) ∈ s.sent) :
    Sought (s.route fk c) ∧ ∀ k, (s.route fk c).out = s.out ++ [(k, false)] →
      ∀ o ∈ (s.route fk c).client.readOrder k, (o, k) ∈ s.sent := by
  have hkey : ∀ {t : State κ ι} {fk : FetchKey κ ι} {order : List ι} {k : κ},
      (t.place fk order).out = t.out ++ [(k, false)] →
        (t.place fk order).client = t.client ∧ fk.key = k := by
    intro t fk order k hk
    rcases place_cases t fk order with ⟨_, heq⟩ | ⟨_, _, heq⟩ <;> rw [heq] at hk ⊢ <;> simp at hk
    exact ⟨rfl, hk⟩
  rcases route_eq s fk c with ⟨hr, heq⟩ | ⟨hr, heq⟩ <;> rw [heq]
  · obtain ⟨hs, hout⟩ := h.place fk _ (hpast hr)
    refine ⟨hs, fun k hk => ?_⟩
    obtain ⟨hc, rfl⟩ := hkey hk
    rw [hc]
    exact hout _ hk
  · have hs' : Sought { s with refreshed := true, client := c } :=
      ⟨h.acc, h.sending, h.running, h.retry⟩
    obtain ⟨hs, hout⟩ := hs'.place { fk with attempt := 0 } (c.readOrder fk.key) (by simp)
    refine ⟨hs, fun k hk => ?_⟩
    obtain ⟨hc, rfl⟩ := hkey hk
    rw [hc]
    exact hout _ hk

end Sent

variable [DecidableEq κ] [DecidableEq ι] {cfg : Config κ} {s s' : State κ ι} {a : Action κ ι}

/-- The nodes before the next position of the first key given back were before it when the key was
last routed, unless the key is to start over. -/
def keepsUp (s : State κ ι) : Bool :=
  match s.retry with
  | [] => true
  | r :: _ => s.refreshes r ||
      ((s.client.readOrder r.key).take r.attempt).all fun o => o ∈ r.via.take r.attempt

/-- Every get is sent, and no key that is given back passes over a node. -/
def inOrder (s : State κ ι) : Action κ ι → Bool
  | .get _ .dialFails | .get _ .writeFails => false
  | .loop _ | .selectRetry _ => s.pc ≠ .draining && s.pc ≠ .selecting || keepsUp s
  | _ => true

theorem past_of_inOrder (h : Sought s) (ha : inOrder s a = true) {c : Client κ ι}
    (hact : a = .loop c ∨ a = .selectRetry c) (hpc : s.pc = .draining ∨ s.pc = .selecting)
    {r : FetchKey κ ι} {rest : List (FetchKey κ ι)} (hr : s.retry = r :: rest)
    (href : s.refreshes r = false) :
    ∀ o ∈ (s.client.readOrder r.key).take r.attempt, (o, r.key) ∈ s.sent := by
  have hk : keepsUp s = true := by
    rcases hact with rfl | rfl <;> rcases hpc with hpc | hpc <;> simpa [inOrder, hpc] using ha
  simp only [keepsUp, hr, href, Bool.false_or, List.all_eq_true, decide_eq_true_eq] at hk
  exact fun o ho => h.retry r (by simp [hr]) o (hk o ho)

/-- Every move keeps the order. -/
theorem Sought.move (h : Sought s) (ha : inOrder s a = true) (hm : Move cfg s a s') :
    Sought s' ∧ ∀ k, s'.out = s.out ++ [(k, false)] →
      ∀ o ∈ s'.client.readOrder k, (o, k) ∈ s'.sent := by
  have hsame : s'.out = s.out → ∀ k, s'.out = s.out ++ [(k, false)] →
      ∀ o ∈ s'.client.readOrder k, (o, k) ∈ s'.sent := fun heq k hk => by simp [heq] at hk
  cases hm with
  | add | finish | client => exact ⟨⟨h.acc, h.sending, h.running, h.retry⟩, hsame rfl⟩
  | cancel | noMore | drain | drained | idle | ends | done =>
    exact ⟨⟨h.acc, by simp, h.running, h.retry⟩, hsame rfl⟩
  | @routeIn _ c k rest =>
    have hs : Sought { s with input := rest, pc := .taking } :=
      ⟨h.acc, by simp, h.running, h.retry⟩
    rw [route_sent]
    exact hs.route c (by simp)
  | @routeRetry _ c r rest pc hact hpc hr =>
    have hs : Sought { s with retry := rest, pc := pc } := by
      refine ⟨h.acc, ?_, h.running, fun fk hfk => h.retry fk (by simp [hr, hfk])⟩
      rcases hpc with ⟨_, rfl⟩ | ⟨_, rfl⟩ <;> simp
    rw [route_sent]
    exact hs.route c (past_of_inOrder h ha hact (hpc.imp And.left And.left) hr)
  | pick id =>
    have hacc : ∀ fk ∈ s.acc.keys id, Due s.sent id fk := by
      intro fk hfk
      obtain ⟨x, hx, rfl⟩ := List.mem_map.1 hfk
      obtain ⟨hx, hid⟩ := List.mem_filter.1 hx
      exact of_decide_eq_true hid ▸ h.acc x hx
    refine ⟨⟨fun x hx => ?_, fun job hjob => ?_, h.running, h.retry⟩, hsame rfl⟩
    · rcases List.mem_append.1 hx with hx | hx
      · exact h.acc x (List.mem_of_mem_filter hx)
      · obtain ⟨fk, hfk, rfl⟩ := List.mem_map.1 hx
        exact hacc fk (List.mem_of_mem_drop hfk)
    · cases hjob
      exact ⟨fun fk hfk => hacc fk ((batch_isPrefix cfg _ 0 0).subset hfk), by simp, by simp⟩
  | hand hpc =>
    refine ⟨⟨h.acc, by simp, fun j hj => ?_, h.retry⟩, hsame rfl⟩
    rcases List.mem_append.1 hj with hj | hj
    · exact h.running j hj
    · rw [List.mem_singleton.1 hj]
      exact h.sending _ hpc
  | unsent i c hr hj he => rcases he with rfl | rfl <;> cases ha
  | refused i b c hr hj =>
    refine ⟨h.get hr c fun todo htodo => ?_, hsame rfl⟩
    cases htodo
    exact List.Subset.refl _
  | answered i recs whole hi hr hj => exact ⟨h.get hr s.client (by simp), hsame rfl⟩
  | @record i k recs whole l₁ l₂ j hr hj =>
    refine ⟨h.worker hr rfl rfl rfl (List.Subset.refl _) (fun hok => ?_) h.retry,
      fun x hx => by simp at hx⟩
    exact ⟨hok.keys, fun _ => hok.sent (by simp [hj]), by simp⟩
  | @corrupt i recs whole l₁ l₂ j hr hj =>
    refine ⟨h.worker hr rfl rfl rfl (List.Subset.refl _) (fun hok => ?_) h.retry, hsame rfl⟩
    exact ⟨hok.keys, fun _ => hok.sent (by simp [hj]), by simp⟩
  | @ended i c whole l₁ l₂ j hr hj =>
    refine ⟨h.worker hr rfl rfl rfl (List.Subset.refl _) (fun hok => ?_) h.retry, hsame rfl⟩
    refine ⟨hok.keys, fun _ => hok.sent (by simp [hj]), fun todo htodo => ?_⟩
    cases htodo
    exact List.filter_subset_self _
  | @back i fk todo l₁ l₂ j hr hj =>
    have hok := h.running j (by simp [hr])
    have hmem : fk ∈ j.keys := hok.todo _ hj (List.mem_cons_self ..)
    refine ⟨h.worker hr rfl rfl rfl (List.Subset.refl _) (fun _ => ?_) fun x hx => ?_, hsame rfl⟩
    · refine ⟨hok.keys, fun _ => hok.sent (by simp [hj]), fun l hl => ?_⟩
      cases hl
      exact fun x hx => hok.todo _ hj (List.mem_cons_of_mem _ hx)
    · rcases List.mem_append.1 hx with hx | hx
      · exact h.retry x hx
      · rw [List.mem_singleton.1 hx]
        exact (hok.keys fk hmem).next (hok.sent (by simp [hj]) fk hmem)
  | finished i hr hj =>
    refine ⟨⟨h.acc, h.sending, fun x hx => h.running x ?_, h.retry⟩, hsame rfl⟩
    rw [hr]
    rcases List.mem_append.1 hx with hx | hx <;> simp [hx]

/-- In a run whose gets are all sent and whose keys pass over no node, a key is reported as found
nowhere only when every node of its read order has been sent a get for it. -/
theorem nowhere_asked (cfg : Config κ) (c : Client κ ι) (as : List (Action κ ι)) (a : Action κ ι)
    (s s' : State κ ι) (k : κ) (hrun : Machine.run (step cfg) (.start c) as = some s)
    (hstep : step cfg s a = some s')
    (hok : Machine.Along (step cfg) (fun s a => inOrder s a = true) (.start c) (as ++ [a]))
    (hout : s'.out = s.out ++ [(k, false)]) :
    ∀ o ∈ s'.client.readOrder k, (o, k) ∈ s'.sent := by
  obtain ⟨hbefore, hlast⟩ := hok.append hrun
  have h0 : Sought (State.start c : State κ ι) :=
    ⟨by simp [State.start], by simp [State.start], by simp [State.start], by simp [State.start]⟩
  have hs : Sought s := Machine.invariant_along
    (fun s a s' h ha hm => (h.move ha (move_of_step hm)).1) as h0 hbefore hrun
  exact (hs.move hlast.1 (move_of_step hstep)).2 k hout

/-- Eight batches at a time. -/
def eight : Config ℕ := { jobs := 8, estSize := fun _ => 1 }

def pair : Client ℕ ℕ := { rank := fun _ => [1, 2], replicas := 2 }

/-- The first replica has failed twice, and its time is over. -/
def later : Client ℕ ℕ := { (pair.handleErr 1).handleErr 1 with now := 10000 }

/-- A key is asked for at `ids` in turn, given back and routed anew; `c` is what a refresh leads to.
-/
def tries (c : Client ℕ ℕ) (e : Event ℕ) (ids : List ℕ) : List (Action ℕ ℕ) :=
  [.add 7, .loop c] ++ ids.flatMap fun id => [.loop c, .loop c, .pick id, .hand, .get 0 e,
    .giveBack 0, .giveBack 0, .loop c, .selectRetry c]

theorem nowhere_asked_refused :
    ∃ s s', Machine.run (step eight) (.start pair)
        (tries pair (.refused true) [1, 2, 1, 2]).dropLast = some s ∧
      step eight s (.selectRetry pair) = some s' ∧ s'.out = s.out ++ [(7, false)] ∧
      ∀ o ∈ s'.client.readOrder 7, (o, 7) ∈ s'.sent := by
  refine ⟨_, _, rfl, rfl, rfl, ?_⟩
  exact nowhere_asked eight pair (tries pair (.refused true) [1, 2, 1, 2]).dropLast
    (.selectRetry pair) _ _ 7 rfl rfl (by decide +kernel) rfl

/-- Node 1 cannot be dialled, and the key is tried there again and again. Node 2 is never asked. -/
theorem nowhere_unasked :
    ∃ s s', Machine.run (step eight) (.start pair)
        (tries later .dialFails [1, 1, 1, 1]).dropLast = some s ∧
      step eight s (.selectRetry later) = some s' ∧ s'.out = s.out ++ [(7, false)] ∧
      2 ∈ s'.client.readOrder 7 ∧ (2, 7) ∉ s'.sent := by
  refine ⟨_, _, rfl, rfl, rfl, ?_⟩
  decide +kernel

end Dstore.Fetch

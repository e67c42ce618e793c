import Dstore.Proofs.Mark

/-!
# No key is lost on the way

At every moment a key that a root leads to is on its way to a worker, or its owners are told and it
is with the worker that expands it. A step may move a key along but drops none (`Grows`, `Traced`).
-/

namespace Dstore.Mark

variable {κ : Type}

open MarkState

/-- The key is one the mark has to find. -/
inductive Params.Reachable (P : Params κ) : κ → Prop
  | root {k : κ} : k ∈ P.roots → P.Reachable k
  | child {k c : κ} : P.Reachable k → c ∈ P.childKeys k → P.Reachable c

/-- A key is at the worker of `d`, or on the way there, to be processed. -/
def State.PendAt (s : State κ) (k : κ) (d : NodeID) : Prop :=
  k ∈ (s.mark (.node d)).waits ∨ (∃ x, k ∈ ((s.mark x).batchFor d).expand) ∨
    ∃ b ∈ s.net, b ∉ s.got ∧ b.dst = d ∧ b.expand ∧ k ∈ b.keys

/-- A batch with the key is on its way to the node. -/
def State.Await (s : State κ) (k : κ) (o : NodeID) : Prop :=
  (∃ x, k ∈ ((s.mark x).batchFor o).keys) ∨ ∃ b ∈ s.net, b ∉ s.got ∧ b.dst = o ∧ k ∈ b.keys

section

variable [DecidableEq κ] (P : Params κ) (s : State κ) (k : κ)

/-- The owner has marked the key, or will hear of it. -/
def Informed (o : NodeID) : Prop :=
  (P.eligible o k → k ∈ (s.mark (.node o)).marked) ∨ s.Await k o

/-- Every owner is informed. -/
def Delivered : Prop := ∀ o ∈ P.placement.writeSet k, o ∈ P.acked → Informed P s k o

/-- The key's children are looked up, or will be. -/
def Routed : Prop :=
  P.leaf k ∨ k ∈ (s.mark (.node (P.worker k))).visited ∨ s.PendAt k (P.worker k)

/-- Nothing is left to do for the key. -/
def Settled : Prop := Delivered P s k ∧ Routed P s k

/-- The key waits somewhere, or is settled. -/
def Covered : Prop := (∃ d, s.PendAt k d) ∨ Settled P s k

end

/-- What a step may only bring further. -/
structure Grows [DecidableEq κ] (P : Params κ) (s s' : State κ) : Prop where
  informed : ∀ k o, Informed P s k o → Informed P s' k o
  visited : ∀ x, (s.mark x).visited ⊆ (s'.mark x).visited
  pendAt : ∀ k d, s.PendAt k d → s'.PendAt k d ∨ Settled P s' k

/-- What a state must keep for every key to be marked in the end. -/
structure Traced [DecidableEq κ] (P : Params κ) (s : State κ) : Prop where
  roots : ∀ k ∈ P.roots, s.left k ∨ Covered P s k
  delivered : ∀ x k, k ∈ (s.mark x).visited → Delivered P s k
  children : ∀ x k, k ∈ (s.mark x).visited →
    (s.mark x).Fetching k ∨ k ∈ (s.mark x).missing ∨ ∀ c ∈ P.childKeys k, Covered P s c
  forward : ∀ x e, e ∈ (s.mark x).forward → e.1 = P.worker e.2 ∧ Routed P s e.2

variable [DecidableEq κ] {P : Params κ} {s s' : State κ}

namespace Grows

variable (h : Grows P s s')

include h

variable {k : κ} {ms : MarkState κ}

theorem delivered (hk : Delivered P s k) : Delivered P s' k :=
  fun o ho ha => h.informed k o (hk o ho ha)

theorem routed (hk : Routed P s k) : Routed P s' k := by
  rcases hk with hk | hk | hk
  · exact .inl hk
  · exact .inr (.inl (h.visited _ hk))
  · rcases h.pendAt k _ hk with hk | hk
    · exact .inr (.inr hk)
    · exact hk.2

theorem covered (hk : Covered P s k) : Covered P s' k := by
  rcases hk with ⟨d, hk⟩ | hk
  · rcases h.pendAt k d hk with hk | hk
    · exact .inl ⟨d, hk⟩
    · exact .inr hk
  · exact .inr ⟨h.delivered hk.1, h.routed hk.2⟩

end Grows

/-- What a step has to show for the trace to go on. -/
theorem Traced.next (ht : Traced P s) (h : Grows P s s')
    (hleft : ∀ k, s.left k → s'.left k ∨ Covered P s' k)
    (hv : ∀ x k, k ∈ (s'.mark x).visited → k ∈ (s.mark x).visited ∨
      Delivered P s' k ∧ (s'.mark x).Fetching k)
    (hf : ∀ x e, e ∈ (s'.mark x).forward → e ∈ (s.mark x).forward ∨
      e.1 = P.worker e.2 ∧ Routed P s' e.2)
    (hr : ∀ x k, (s.mark x).Fetching k → (s'.mark x).Fetching k ∨ k ∈ (s'.mark x).missing ∨
      ∀ c ∈ P.childKeys k, Covered P s' c)
    (hm : ∀ x, (s.mark x).missing ⊆ (s'.mark x).missing) : Traced P s' where
  roots k hk := by
    rcases ht.roots k hk with hk | hk
    · exact hleft k hk
    · exact .inr (h.covered hk)
  delivered x k hk := by
    rcases hv x k hk with hk | hk
    · exact h.delivered (ht.delivered x k hk)
    · exact hk.1
  children x k hk := by
    rcases hv x k hk with hk | hk
    · rcases ht.children x k hk with hk | hk | hk
      · exact hr x k hk
      · exact .inr (.inl (hm x hk))
      · exact .inr (.inr fun c hc => h.covered (hk c hc))
    · exact .inl hk.2
  forward x e he := by
    rcases hf x e he with he | he
    · exact ⟨(ht.forward x e he).1, h.routed (ht.forward x e he).2⟩
    · exact he

/-- A step that loses no key on its way. -/
theorem Grows.of (hmarked : ∀ x, (s.mark x).marked ⊆ (s'.mark x).marked)
    (hvisited : ∀ x, (s.mark x).visited ⊆ (s'.mark x).visited)
    (hwaits : ∀ d, ∀ k ∈ (s.mark (.node d)).waits,
      k ∈ (s'.mark (.node d)).waits ∨ Settled P s' k)
    (hkeys : ∀ x o, ∀ k ∈ ((s.mark x).batchFor o).keys, s'.Await k o)
    (hexpand : ∀ x d, ∀ k ∈ ((s.mark x).batchFor d).expand, s'.PendAt k d)
    (hnet : ∀ b ∈ s.net, b ∉ s.got → b ∈ s'.net ∧ b ∉ s'.got ∨ ∀ k ∈ b.keys,
      (P.eligible b.dst k → k ∈ (s'.mark (.node b.dst)).marked) ∧
        (b.expand → k ∈ (s'.mark (.node b.dst)).waits)) : Grows P s s' := by
  refine ⟨fun k o hk => ?_, hvisited, fun k d hk => ?_⟩
  · rcases hk with hk | ⟨x, hk⟩ | ⟨b, hb, hg, rfl, hk⟩
    · exact .inl fun he => hmarked _ (hk he)
    · exact .inr (hkeys x o k hk)
    · rcases hnet b hb hg with ⟨hb, hg⟩ | h
      · exact .inr (.inr ⟨b, hb, hg, rfl, hk⟩)
      · exact .inl (h k hk).1
  · rcases hk with hk | ⟨x, hk⟩ | ⟨b, hb, hg, rfl, he, hk⟩
    · exact (hwaits d k hk).imp .inl id
    · exact .inl (hexpand x d k hk)
    · rcases hnet b hb hg with ⟨hb, hg⟩ | h
      · exact .inl (.inr (.inr ⟨b, hb, hg, rfl, he, hk⟩))
      · exact .inl (.inl ((h k hk).2 he))

omit [DecidableEq κ] in
theorem flight_of_eq (hnet : s'.net = s.net) (hgot : s'.got = s.got) {Q : Batch κ → Prop}
    (b : Batch κ) (hb : b ∈ s.net) (hg : b ∉ s.got) : b ∈ s'.net ∧ b ∉ s'.got ∨ Q b :=
  .inl ⟨hnet ▸ hb, hgot ▸ hg⟩

/-- A turn after which a mark has all it had, and has visited and forwarded nothing new. -/
structure Grown (ms ms' : MarkState κ) : Prop where
  marked : ms.marked ⊆ ms'.marked
  visited : ms'.visited = ms.visited
  forward : ms'.forward = ms.forward
  missing : ms.missing ⊆ ms'.missing
  keys : ∀ o, (ms.batchFor o).keys ⊆ (ms'.batchFor o).keys
  expand : ∀ o, (ms.batchFor o).expand ⊆ (ms'.batchFor o).expand
  waits : ms.waits ⊆ ms'.waits

omit [DecidableEq κ] in
theorem Grown.refl (ms : MarkState κ) : Grown ms ms :=
  ⟨fun _ h => h, rfl, rfl, fun _ h => h, fun _ _ h => h, fun _ _ h => h, fun _ h => h⟩

omit [DecidableEq κ] in
theorem Grown.of_same {ms ms' : MarkState κ} (h : Same ms ms') : Grown ms ms' :=
  ⟨fun _ hk => h.marked ▸ hk, h.visited, h.forward, h.missing, fun o _ hk => h.batchFor o ▸ hk,
    fun o _ hk => h.batchFor o ▸ hk, h.waits⟩

theorem Traced.grown (ht : Traced P s) (h : ∀ x, Grown (s.mark x) (s'.mark x))
    (hnet : ∀ b ∈ s.net, b ∉ s.got → b ∈ s'.net ∧ b ∉ s'.got ∨ ∀ k ∈ b.keys,
      (P.eligible b.dst k → k ∈ (s'.mark (.node b.dst)).marked) ∧
        (b.expand → k ∈ (s'.mark (.node b.dst)).waits))
    (hleft : ∀ k, s.left k → s'.left k ∨ Covered P s' k)
    (hr : ∀ x k, (s.mark x).Fetching k → (s'.mark x).Fetching k ∨ k ∈ (s'.mark x).missing ∨
      ∀ c ∈ P.childKeys k, Covered P s' c) : Traced P s' := by
  have hg : Grows P s s' :=
    .of (fun x => (h x).marked) (fun x k hk => (h x).visited ▸ hk)
      (fun d k hk => .inl ((h _).waits hk)) (fun x o k hk => .inl ⟨x, (h x).keys o hk⟩)
      (fun x d k hk => .inr (.inl ⟨x, (h x).expand d hk⟩)) hnet
  exact ht.next hg hleft (fun x k hk => .inl ((h x).visited ▸ hk))
    (fun x e he => .inl ((h x).forward ▸ he)) hr fun x => (h x).missing

omit [DecidableEq κ] in
theorem Grown.set {x : Sender} (h : Grown (s.mark x) ms) (y : Sender) :
    Grown (s.mark y) ((s.set x ms).mark y) :=
  State.forall_set (R := fun y ms => Grown (s.mark y) ms) h (fun y _ => .refl (s.mark y)) y

omit [DecidableEq κ] in
theorem Fetching.set {x y : Sender} (h : ms.worker = (s.mark x).worker) (hk : (s.mark y).Fetching k) :
    ((s.set x ms).mark y).Fetching k := by
  obtain ⟨batch, hk⟩ := hk
  rcases eq_or_ne y x with rfl | hy
  · exact ⟨batch, by rw [State.set_mark_self, h, hk]⟩
  · exact ⟨batch, by rw [State.set_mark_of_ne s ms hy, hk]⟩

/-- A key's children are on their way before the key is done. -/
theorem Traced.fetch (ht : Traced P s) {id : NodeID} {batch : List κ} {ok : Bool}
    (hw : (s.mark (.node id)).worker = .fetching k batch) :
    Traced P (s.set (.node id) ((s.mark (.node id)).fetched P k batch ok)) := by
  set ms := s.mark (.node id) with hms
  have hgrown : Grown ms (ms.fetched P k batch ok) := by
    have hq : ms.waits = ms.queue ++ batch := by simp [waits, hand, hw]
    cases ok with
    | true =>
      refine ⟨fun _ h => h, rfl, rfl, fun _ h => h, fun _ _ h => h, fun _ _ h => h, fun j hj => ?_⟩
      rw [hq] at hj
      simp only [fetched, waits, hand, if_true, List.mem_append] at hj ⊢
      tauto
    | false =>
      refine ⟨fun _ h => h, rfl, rfl, List.subset_append_left _ _, fun _ _ h => h, fun _ _ h => h,
        fun j hj => ?_⟩
      rw [hq] at hj
      exact hj
  refine ht.grown hgrown.set (flight_of_eq rfl rfl) (fun k hk => .inl hk) fun x j hj => ?_
  rcases eq_or_ne x (.node id) with rfl | hx
  · obtain ⟨batch', hj⟩ := hj
    rw [← hms, hw] at hj
    cases hj
    rw [State.set_mark_self]
    cases ok with
    | true =>
      refine .inr (.inr fun c hc => .inl ⟨id, .inl ?_⟩)
      rw [State.set_mark_self]
      simp [fetched, waits, hc]
    | false => exact .inr (.inl (by simp [fetched]))
  · rw [State.set_mark_of_ne s _ hx]
    exact .inl hj

theorem Traced.root (ht : Traced P s) {todo : List κ} (hc : s.coord = .roots (k :: todo)) :
    Traced P ((s.set (.node P.node) { s.mark (.node P.node) with
      queue := (s.mark (.node P.node)).queue ++ [k]
      dirty := true }).goto (.roots todo)) := by
  refine ht.grown (Grown.set ⟨fun _ h => h, rfl, rfl, fun _ h => h, fun _ _ h => h,
    fun _ _ h => h, fun j hj => ?_⟩) (flight_of_eq rfl rfl) (fun j hj => ?_) fun x j hj => .inl ?_
  · simp only [waits, hand, List.mem_append] at hj ⊢
    tauto
  · simp only [State.left, hc, List.mem_cons] at hj
    rcases hj with rfl | hj
    · refine .inr (.inl ⟨P.node, .inl ?_⟩)
      simp [State.goto, waits]
    · exact .inl hj
  · exact Fetching.set rfl hj

theorem Traced.rootOut (ht : Traced P s) {todo : List κ} (hc : s.coord = .roots (k :: todo)) :
    Traced P ((s.set .coord ((s.mark .coord).pushExpand (P.worker k) k)).goto (.roots todo)) := by
  have hb := batchFor_pushExpand (s.mark .coord) k (P.worker k)
  refine ht.grown (Grown.set ⟨fun _ h => h, rfl, rfl, fun _ h => h, fun o j hj => ?_,
    fun o j hj => ?_, fun _ h => h⟩) (flight_of_eq rfl rfl) (fun j hj => ?_) fun x j hj => .inl ?_
  · rw [hb]
    split_ifs with h
    · exact h ▸ hj
    · exact hj
  · rw [hb]
    split_ifs with h
    · exact List.mem_append_left _ (h ▸ hj)
    · exact hj
  · simp only [State.left, hc, List.mem_cons] at hj
    rcases hj with rfl | hj
    · refine .inr (.inl ⟨P.worker j, .inr (.inl ⟨.coord, ?_⟩)⟩)
      simp [State.goto, hb]
    · exact .inl hj
  · exact Fetching.set rfl hj

/-- A key is delivered to its owners before its children are fetched. -/
theorem Traced.process (ht : Traced P s) {id : NodeID} {batch : List κ}
    (hw : (s.mark (.node id)).worker = .processing (k :: batch))
    (hp : Processed P id k batch (s.mark (.node id)) ms) : Traced P (s.set (.node id) ms) := by
  set s' := s.set (.node id) ms with hs'
  have hself : s'.mark (.node id) = ms := State.set_mark_self ..
  have hall : ∀ {R : Sender → MarkState κ → Prop}, R (.node id) ms →
      (∀ y, y ≠ .node id → R y (s.mark y)) → ∀ y, R y (s'.mark y) := State.forall_set
  have hexp : ∀ x d, ((s.mark x).batchFor d).expand ⊆ ((s'.mark x).batchFor d).expand := fun x =>
    hall (R := fun x ms => ∀ d, ((s.mark x).batchFor d).expand ⊆ (ms.batchFor d).expand) hp.expand
      (fun _ _ _ _ h => h) x
  have hkeys : ∀ x o, ((s.mark x).batchFor o).keys ⊆ ((s'.mark x).batchFor o).keys := fun x =>
    hall (R := fun x ms => ∀ o, ((s.mark x).batchFor o).keys ⊆ (ms.batchFor o).keys) hp.keys
      (fun _ _ _ _ h => h) x
  have hmarked : ∀ x, (s.mark x).marked ⊆ (s'.mark x).marked :=
    hall (R := fun x ms => (s.mark x).marked ⊆ ms.marked) hp.marked fun _ _ _ h => h
  have hvisited : ∀ x, (s.mark x).visited ⊆ (s'.mark x).visited := by
    refine hall (R := fun x ms => (s.mark x).visited ⊆ ms.visited) ?_ fun _ _ _ h => h
    rcases hp.visited with h | ⟨-, h, -⟩ <;> rw [h]
    · exact fun _ h => h
    · exact List.subset_cons_self _ _
  have hwaits : ∀ d, ∀ j ∈ (s.mark (.node d)).waits, j ∈ (s'.mark (.node d)).waits ∨
      d = id ∧ j = k := by
    intro d j hj
    rcases eq_or_ne d id with rfl | hd
    · rw [hself, hp.waits]
      simp only [waits, hand, hw, List.mem_append, List.mem_cons] at hj ⊢
      tauto
    · rw [hs', State.set_mark_of_ne s ms (by simpa using hd)]
      exact .inl hj
  have hdel : Delivered P s' k := by
    intro o ho ha
    have := hp.owner o ho ha
    split_ifs at this with h
    · exact .inl (by rw [h, hself]; exact this)
    · exact .inr (.inl ⟨.node id, by rw [hself]; exact this⟩)
  have hroute : Routed P s' k := by
    rcases hp.routed with h | ⟨hk, h⟩ | ⟨hk, h⟩
    · exact .inl h
    · exact .inr (.inl (by rw [hk, hself]; exact h))
    · rcases hp.forward with h' | ⟨-, h'⟩
      · rw [h'] at h
        rcases (ht.forward _ _ h).2 with h | h | h | ⟨x, h⟩ | h
        · exact .inl h
        · exact .inr (.inl (hvisited _ h))
        · -- the key waits at its worker, which is another node's
          exact .inr (.inr ((hwaits _ _ h).elim .inl fun h => absurd h.1 hk))
        · exact .inr (.inr (.inr (.inl ⟨x, hexp x _ h⟩)))
        · exact .inr (.inr (.inr (.inr h)))
      · exact .inr (.inr (.inr (.inl ⟨.node id, by rw [hself]; exact h'⟩)))
  have hg : Grows P s s' := by
    refine .of hmarked hvisited (fun d j hj => (hwaits d j hj).imp_right ?_)
      (fun x o j hj => .inl ⟨x, hkeys x o hj⟩) (fun x d j hj => .inr (.inl ⟨x, hexp x d hj⟩))
      (flight_of_eq rfl rfl)
    rintro ⟨-, rfl⟩
    exact ⟨hdel, hroute⟩
  refine ht.next hg (fun k hk => .inl hk) ?_ ?_ ?_ ?_
  · refine hall (R := fun x ms => ∀ j, j ∈ ms.visited → j ∈ (s.mark x).visited ∨
      Delivered P s' j ∧ ms.Fetching j) (fun j hj => ?_) fun x _ j hj => .inl hj
    rcases hp.visited with h | ⟨-, h, hf⟩ <;> rw [h] at hj
    · exact .inl hj
    · rcases List.mem_cons.1 hj with rfl | hj
      · exact .inr ⟨hdel, hf⟩
      · exact .inl hj
  · refine hall (R := fun x ms => ∀ e, e ∈ ms.forward → e ∈ (s.mark x).forward ∨
      e.1 = P.worker e.2 ∧ Routed P s' e.2) (fun e he => ?_) fun x _ e he => .inl he
    rcases hp.forward with h | ⟨h, -⟩ <;> rw [h] at he
    · exact .inl he
    · rcases List.mem_cons.1 he with rfl | he
      · exact .inr ⟨rfl, hroute⟩
      · exact .inl he
  · refine hall (R := fun x ms => ∀ j, (s.mark x).Fetching j → ms.Fetching j ∨ j ∈ ms.missing ∨
      ∀ c ∈ P.childKeys j, Covered P s' c) ?_ fun x _ j hj => .inl hj
    rintro j ⟨batch, hj⟩
    simp [hw] at hj
  · exact hall (R := fun x ms => (s.mark x).missing ⊆ ms.missing)
      (by rw [hp.counters.2.2.2.2.1]; exact fun _ h => h) fun _ _ _ h => h

section

/-- A batch that arrives leaves the network for a mark or a queue. -/
theorem Traced.receive (ht : Traced P s) {b : Batch κ} :
    Traced P { s.set (.node b.dst) ((s.mark (.node b.dst)).handleKeys P b.dst b) with
      got := b :: s.got } := by
  set ms := s.mark (.node b.dst)
  have he := handleKeys_eq P b.dst ms b
  have hw : (ms.handleKeys P b.dst b).waits =
      (if b.expand then ms.queue ++ b.keys else ms.queue) ++ ms.hand := by
    rw [he]
    rfl
  refine ht.grown (Grown.set ⟨handleKeys_marked P b.dst ms b, ?_, ?_, ?_, ?_, ?_, ?_⟩)
    (fun b' hb' hg => ?_) (fun k hk => .inl hk) fun x j hj => .inl ?_
  · rw [he]
  · rw [he]
  · rw [he]
    exact fun _ h => h
  · rw [he]
    exact fun _ _ h => h
  · rw [he]
    exact fun _ _ h => h
  · intro k hk
    rw [hw]
    rcases List.mem_append.1 hk with hk | hk
    · split_ifs
      · exact List.mem_append_left _ (List.mem_append_left _ hk)
      · exact List.mem_append_left _ hk
    · exact List.mem_append_right _ hk
  · rcases eq_or_ne b' b with rfl | hne
    · refine .inr fun k hk => ⟨fun hel => ?_, fun hx => ?_⟩
      · simpa using mem_handleKeys P _ ms _ hk hel
      · simp [hw, hx, hk]
    · exact .inl ⟨hb', by simp [hne, hg]⟩
  · exact Fetching.set (by rw [he]) hj

end

/-- A batch that is sent leaves the sender for the network. -/
theorem Traced.send (ht : Traced P s) {x : Sender} {id : NodeID} {ids : List NodeID} {b : Batch κ}
    (hw : (s.mark x).worker = .flushing (id :: ids)) (hf : (s.mark x).flush x id ids = (ms, some b))
    (hb : b ∉ s.got) :
    Traced P { s.set x ms with net := b :: s.net } := by
  obtain ⟨ob, hg, hbe, hme⟩ := flush_some hf
  set s' : State κ := { s.set x ms with net := b :: s.net }
  have hself : s'.mark x = ms := State.set_mark_self ..
  have hother : ∀ y, y ≠ x → s'.mark y = s.mark y := fun y hy => State.set_mark_of_ne s ms hy
  have hold : ((s.mark x).batchFor id) = ob := by simp [batchFor, hg]
  have hnew : ∀ o, ms.batchFor o = if o = id then (pick ob).2.2 else (s.mark x).batchFor o := by
    intro o
    rw [hme]
    simp only [batchFor]
    rw [KV.get_set]
    split_ifs <;> rfl
  have hgrow : ∀ y, (s'.mark y).marked = (s.mark y).marked ∧
      (s'.mark y).visited = (s.mark y).visited ∧
      (s'.mark y).forward = (s.mark y).forward ∧ (s'.mark y).missing = (s.mark y).missing ∧
      (s'.mark y).waits = (s.mark y).waits ∧
      ∀ k, (s.mark y).Fetching k → (s'.mark y).Fetching k := by
    intro y
    rcases eq_or_ne y x with rfl | hy
    · rw [hself, hme]
      exact ⟨rfl, rfl, rfl, rfl, by simp [waits, hand, hw], by simp [Fetching, hw]⟩
    · rw [hother y hy]
      exact ⟨rfl, rfl, rfl, rfl, rfl, fun _ h => h⟩
  -- what leaves the batch pending to `id` is in the batch sent
  have hgrows : Grows P s s' := by
    refine .of (fun y k hk => (hgrow y).1 ▸ hk) (fun y k hk => (hgrow y).2.1 ▸ hk)
      (fun d k hk => .inl ((hgrow _).2.2.2.2.1 ▸ hk)) (fun y o k hk => ?_) (fun y d k hk => ?_)
      fun b' hb' hg' => .inl ⟨List.mem_cons_of_mem _ hb', hg'⟩
    · rcases eq_or_ne y x with rfl | hy
      · by_cases ho : o = id
        · rw [ho, hold] at hk
          rcases mem_pick_keys hk with hk | hk
          · exact .inl ⟨y, by rw [hself, hnew, if_pos ho]; exact hk⟩
          · exact .inr ⟨b, List.mem_cons_self, hb, by rw [hbe, ho], by rw [hbe]; exact hk⟩
        · exact .inl ⟨y, by rw [hself, hnew, if_neg ho]; exact hk⟩
      · exact .inl ⟨y, by rw [hother y hy]; exact hk⟩
    · rcases eq_or_ne y x with rfl | hy
      · by_cases hd : d = id
        · rw [hd, hold] at hk
          rcases mem_pick_expand hk with hk | ⟨he, hk⟩
          · exact .inr (.inl ⟨y, by rw [hself, hnew, if_pos hd]; exact hk⟩)
          · exact .inr (.inr ⟨b, List.mem_cons_self, hb, by rw [hbe, hd], by rw [hbe]; exact he,
              by rw [hbe]; exact hk⟩)
        · exact .inr (.inl ⟨y, by rw [hself, hnew, if_neg hd]; exact hk⟩)
      · exact .inr (.inl ⟨y, by rw [hother y hy]; exact hk⟩)
  exact ht.next hgrows (fun k hk => .inl hk) (fun y k hk => .inl ((hgrow y).2.1 ▸ hk))
    (fun y e he => .inl ((hgrow y).2.2.1 ▸ he)) (fun y k hk => .inl ((hgrow y).2.2.2.2.2 k hk))
    fun y k hk => (hgrow y).2.2.2.1 ▸ hk

end Dstore.Mark

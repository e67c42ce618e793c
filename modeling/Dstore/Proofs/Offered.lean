import Dstore.Proofs.Settled

/-!
# A participant that reports done has offered what it held

A record that a participant held when it began its pass is accounted for (`Passed`), or it is in a
pack the pass is still to visit (`Xfer.ahead`), where sweeps keep to a rule and every index can be
read (`careful`).
-/

namespace Dstore.Cluster.Reconcile

variable {κ : Type} {P : Params κ} {s s' : State κ} {act : Action κ} {v u : View} {l : Layout}
  {log new : List (Event κ)} {k : κ} {t : NodeID} {id n : ℕ} {x y : Xfer κ}

/-- The events after the first `n`. -/
def since (n : ℕ) (log : List (Event κ)) : List (Event κ) := log.take (log.length - n)

theorem since_append (h : n ≤ log.length) : since n (new ++ log) = new ++ since n log := by
  unfold since
  rw [List.length_append, show new.length + log.length - n = new.length + (log.length - n) by omega,
    List.take_length_add_append]

/-- A key is accounted for since the pass began, but for offers to `rest`: skipped, dropped as dead,
or offered to each owner under the pass's placement that was not spared. -/
def Passed (P : Params κ) (log : List (Event κ)) (x : Xfer κ) (k : κ) (rest : NodeID → Prop) :
    Prop :=
  .skip x.id k ∈ since x.born log ∨ .dead k ∈ since x.born log ∨
    ∃ l, Known log l ∧ l.id = x.id ∧ ∀ t ∈ l.owners P k, t ≠ P.self →
      rest t ∨ .offer x.id t k ∈ since x.born log ∨ .spare x.id t k ∈ since x.born log

theorem Passed.append {rest rest' : NodeID → Prop} (h : Passed P log x k rest)
    (hb : x.born ≤ log.length)
    (hr : ∀ t, rest t → rest' t ∨ .offer x.id t k ∈ new) : Passed P (new ++ log) x k rest' := by
  unfold Passed
  rw [since_append hb]
  refine h.imp (List.mem_append_right _) (.imp (List.mem_append_right _) ?_)
  rintro ⟨l, hl, hid, hall⟩
  refine ⟨l, hl.append new, hid, fun t ht hne => ?_⟩
  rcases hall t ht hne with h | h | h
  · exact (hr t h).imp_right fun h => .inl (List.mem_append_left _ h)
  · exact .inr (.inl (List.mem_append_right _ h))
  · exact .inr (.inr (List.mem_append_right _ h))

/-- The pack is still to be walked. -/
def Xfer.ahead (x : Xfer κ) (p : ℕ) : Bool :=
  p ∉ x.done ∧ (x.cover → x.sealID < p ∧ p ≤ x.sealID2)

theorem Xfer.ahead_iff {p : ℕ} : x.ahead p = true ↔
    p ∉ x.done ∧ (x.cover = true → x.sealID < p ∧ p ≤ x.sealID2) := by
  unfold Xfer.ahead
  exact decide_eq_true_iff

/-- The pack has been walked. -/
def Xfer.Behind (x : Xfer κ) (p : ℕ) : Prop := p ∈ x.done ∨ x.cover = true ∧ p ≤ x.sealID

theorem behind_of_nextPack : ∀ {segs : List ℕ}, segs.Pairwise (· < ·) → x.nextPack segs = none →
    ∀ p ∈ segs, p ≤ x.limit → x.Behind p
  | [], _, _, p, hp, _ => by cases hp
  | id :: segs, hs, hn, p, hp, hle => by
    rw [List.pairwise_cons] at hs
    unfold Xfer.nextPack at hn
    split_ifs at hn with h1 h2 h3
    · rcases List.mem_cons.1 hp with rfl | hp
      · omega
      · have := hs.1 p hp
        omega
    · rcases List.mem_cons.1 hp with rfl | hp
      · exact .inl h2
      · exact behind_of_nextPack hs.2 hn p hp hle
    · rcases List.mem_cons.1 hp with rfl | hp
      · exact .inr h3
      · exact behind_of_nextPack hs.2 hn p hp hle

theorem nextPack_le : ∀ {segs rest : List ℕ}, x.nextPack segs = some (id, rest) →
    id ≤ x.limit ∧ rest <:+ segs
  | [], rest, hn => by cases hn
  | p :: segs, rest, hn => by
    unfold Xfer.nextPack at hn
    split_ifs at hn with h1 h2 h3
    · obtain ⟨hid, hrest⟩ := nextPack_le hn
      exact ⟨hid, hrest.trans (List.suffix_cons p segs)⟩
    · obtain ⟨hid, hrest⟩ := nextPack_le hn
      exact ⟨hid, hrest.trans (List.suffix_cons p segs)⟩
    · cases hn
      exact ⟨by omega, List.suffix_cons id segs⟩

/-! ## The passes in use -/

/-- The pass a node is in. -/
def Pass.xfer : Pass κ → Option (Xfer κ)
  | .walking _ x _ _ => some x
  | .visiting _ (some (_, x, _)) => some x
  | .ending _ x _ => some x
  | .reporting _ x => some x
  | _ => none

/-- All passes the node knows of. -/
def State.passes (s : State κ) : List (Xfer κ) := s.xfer.toList ++ s.saved ++ s.pass.xfer.toList

theorem mem_passes : x ∈ s.passes ↔ s.xfer = some x ∨ x ∈ s.saved ∨ s.pass.xfer = some x := by
  simp [State.passes]

/-- A pass: each key it began with is accounted for, or in a pack ahead. -/
structure XferOk (P : Params κ) (s : State κ) (x : Xfer κ) : Prop where
  born : x.born ≤ s.log.length
  top : x.sealID < s.active ∧ x.sealID2 < s.active
  done : ∀ p ∈ x.done, p < s.active
  held : ∀ e ∈ x.held, Passed P s.log x e.1 (fun _ => False) ∨
    ∃ p, (e.1, p) ∈ s.node.records ∧ x.ahead p = true

theorem XferOk.limit (h : XferOk P s x) : x.limit < s.active := by
  unfold Xfer.limit
  split_ifs
  · exact h.top.2
  · exact h.top.1

/-- What is known of the pack that is being offered. -/
structure Visiting (P : Params κ) (s : State κ) (c : Visit κ) (x : Xfer κ) : Prop where
  limit : c.id ≤ x.limit
  forID : c.forID = x.id
  keys : ∀ k, (k, c.id) ∈ s.node.records → k ∈ c.keys
  passed : c.deferred = false → ∀ k ∈ c.keys, Passed P s.log x k fun t => (t, k) ∈ c.todo

/-- What is known of the pass from where it is. -/
def PassOk (P : Params κ) (s : State κ) : Pass κ → Prop
  | .walking v x segs allDone => v.pending.map Pending.id = some x.id ∧ segs.Pairwise (· < ·) ∧
      (allDone = true → ∀ p ∈ s.node.segments, p ≤ x.limit → p ∈ segs ∨ x.Behind p)
  | .visiting c (some (v, x, rest)) => v.pending.map Pending.id = some x.id ∧
      rest.Pairwise (· < ·) ∧ Visiting P s c x
  | .ending v x allDone => v.pending.map Pending.id = some x.id ∧
      (allDone = true → ∀ p ∈ s.node.segments, p ≤ x.limit → x.Behind p)
  | .reporting id x => id = x.id ∧ ∀ e ∈ x.held, Passed P s.log x e.1 fun _ => False
  | _ => True

/-- New packs and moved records are in the active segment or above. -/
structure Above (s s' : State κ) : Prop where
  segments : ∀ p ∈ s'.node.segments, p ∈ s.node.segments ∨ s.active ≤ p
  records : ∀ e ∈ s'.node.records, e ∈ s.node.records ∨ s.active ≤ e.2

theorem Above.same (h : s'.node = s.node) : Above s s' :=
  ⟨fun _ hp => .inl (h ▸ hp), fun _ he => .inl (h ▸ he)⟩

theorem sealActive_above (s : State κ) (o : SealOut) : Above s (s.sealActive o).1 := by
  rcases sealActive_cases s o with hs | hs <;> rw [hs]
  · refine ⟨fun p hp => ?_, fun e he => .inl he⟩
    exact (List.mem_append.1 hp).imp_right fun hp => (List.mem_singleton.1 hp).ge
  · exact .same rfl

theorem adoptTransition_above (P : Params κ) (s : State κ) (v : View) (o : SealOut) :
    Above s (s.adoptTransition P v o) := by
  rcases adoptTransition_cases P s v o with hs | ⟨x, -, hs⟩ | ⟨m, top, x, hm, -, -, -, -, -, -, hs⟩
  · exact .same (by rw [hs])
  · exact .same (by rw [hs])
  · have ha := sealActive_above s o
    rw [hm] at ha
    rw [hs]
    exact ⟨ha.segments, ha.records⟩

theorem afterNode_node (s : State κ) (a : Pins.Action κ) (n : Pins.State κ) :
    (s.afterNode a n).node = n := by
  unfold State.afterNode
  split
  · split <;> rfl
  · rfl
  · rfl

variable [DecidableEq κ]

theorem Above.stored {n : Pins.State κ} (h : Stored s.active s.node n) (hn : s'.node = n) :
    Above s s' := by
  obtain ⟨fresh, hrec, hfresh⟩ := h.records
  refine ⟨fun p hp => .inl ?_, fun e he => ?_⟩
  · rwa [hn, h.segments] at hp
  · rw [hn, hrec, List.mem_append] at he
    exact he.imp_right fun he => (hfresh e he).ge

/-- Records come into the active segment only. -/
theorem stepped_above (hs : Stepped P s act s') : Above s s' := by
  cases hs with
  | node ha hn => exact .stored (alone_stored ha hn) (afterNode_node ..)
  | roots hu hn => exact .stored (roots_stored hn) rfl
  | roll =>
    refine ⟨fun p hp => ?_, fun e he => .inl he⟩
    exact (List.mem_append.1 hp).imp_right fun hp => (List.mem_singleton.1 hp).ge
  | compact ha hc hn =>
    obtain ⟨si, -, hseg, -, -, hrec⟩ := compact_cases hn
    refine ⟨fun p hp => .inl ?_, fun e he => ?_⟩
    · rw [hseg] at hp
      exact List.mem_of_mem_filter hp
    · exact (hrec e he).symm.imp And.left fun heq => heq.ge
  | onEpoch ha hv => exact adoptTransition_above ..
  | adoptPass ha hv =>
    exact ⟨(adoptTransition_above ..).segments, (adoptTransition_above ..).records⟩
  | wiped hst => exact ⟨(sealActive_above ..).segments, (sealActive_above ..).records⟩
  | cover ha hp hc => exact ⟨(sealActive_above ..).segments, (sealActive_above ..).records⟩
  | _ => exact .same rfl

/-- Only a compaction takes records away. -/
theorem records_kept (hs : Stepped P s act s') (hact : ∀ i ids, act ≠ .compact i ids) :
    ∀ e ∈ s.node.records, e ∈ s'.node.records := by
  intro e he
  have hseal : ∀ o, e ∈ (s.sealActive o).1.node.records := by
    intro o
    rcases sealActive_cases s o with hs | hs <;> rw [hs] <;> exact he
  have hadopt : ∀ v o, e ∈ (s.adoptTransition P v o).node.records := by
    intro v o
    rcases adoptTransition_cases P s v o with
      hs | ⟨x, -, hs⟩ | ⟨m, top, x, hm, -, -, -, -, -, -, hs⟩
    · rwa [hs]
    · rwa [hs]
    · have hmem := hseal o
      rw [hm] at hmem
      rwa [hs]
  have hstored : ∀ {n : Pins.State κ}, Stored s.active s.node n → e ∈ n.records := by
    intro n h
    obtain ⟨fresh, hrec, -⟩ := h.records
    rw [hrec]
    exact List.mem_append_left _ he
  cases hs with
  | node ha hn => exact (afterNode_node s _ _).symm ▸ hstored (alone_stored ha hn)
  | roots hu hn => exact hstored (roots_stored hn)
  | compact ha hc hn => exact absurd ha (hact _ _)
  | onEpoch ha hv => exact hadopt _ _
  | adoptPass ha hv => exact hadopt _ _
  | wiped hst => exact hseal _
  | cover ha hp hc => exact hseal _
  | _ => exact he

/-! ## What a step keeps -/

omit [DecidableEq κ] in
theorem XferOk.grow (h : XferOk P s x) (hg : Grows s s')
    (hheld : ∀ k p, (k, p) ∈ s.node.records → x.ahead p = true →
      Passed P s'.log x k (fun _ => False) ∨ ∃ p', (k, p') ∈ s'.node.records ∧ x.ahead p' = true) :
    XferOk P s' x := by
  obtain ⟨new, hlog⟩ := hg.log
  refine ⟨?_, ⟨h.top.1.trans_le hg.active, h.top.2.trans_le hg.active⟩,
    fun p hp => (h.done p hp).trans_le hg.active, fun e he => ?_⟩
  · have := h.born
    rw [hlog, List.length_append]
    omega
  · rcases h.held e he with hp | ⟨p, hp, ha⟩
    · rw [hlog]
      exact .inl (hp.append h.born fun _ h => h.elim)
    · exact hheld e.1 p hp ha

omit [DecidableEq κ] in
/-- What is known of a pass survives other steps. -/
theorem PassOk.grow {q : Pass κ} (h : PassOk P s q) (hx : ∀ x, q.xfer = some x → XferOk P s x)
    (hg : Grows s s') (ha : Above s s') : PassOk P s' q := by
  obtain ⟨new, hlog⟩ := hg.log
  have hseg : ∀ {x : Xfer κ}, q.xfer = some x → ∀ p ∈ s'.node.segments, p ≤ x.limit →
      p ∈ s.node.segments := by
    intro x hq p hp hle
    have := (hx x hq).limit
    exact (ha.segments p hp).resolve_right (by omega)
  cases q with
  | walking v x segs allDone =>
    exact ⟨h.1, h.2.1, fun hall p hp hle => h.2.2 hall p (hseg rfl p hp hle) hle⟩
  | ending v x allDone =>
    exact ⟨h.1, fun hall p hp hle => h.2 hall p (hseg rfl p hp hle) hle⟩
  | visiting c w =>
    rcases w with _ | ⟨v, x, rest⟩
    · trivial
    · have hx := hx x rfl
      obtain ⟨hid, hrest, hv⟩ := h
      refine ⟨hid, hrest, hv.limit, hv.forID, fun k hk => hv.keys k ?_, fun hd k hk => ?_⟩
      · have := hv.limit
        have := hx.limit
        exact (ha.records _ hk).resolve_right (by simp only; omega)
      · rw [hlog]
        exact (hv.passed hd k hk).append hx.born fun _ h => .inl h
  | reporting id x =>
    refine ⟨h.1, fun e he => ?_⟩
    rw [hlog]
    exact (h.2 e he).append (hx x rfl).born fun _ h => h.elim
  | _ => trivial

/-- Every pass the node knows of has offered what it says. -/
structure OfferedInv (P : Params κ) (s : State κ) : Prop where
  inv : Inv s
  pos : 0 < s.active
  passes : ∀ x ∈ s.passes, XferOk P s x
  pass : PassOk P s s.pass

omit [DecidableEq κ] in
theorem OfferedInv.xferOk (h : OfferedInv P s) (hx : s.pass.xfer = some x) : XferOk P s x :=
  h.passes x (mem_passes.2 (.inr (.inr hx)))

omit [DecidableEq κ] in
theorem offeredInv_start (h : Sound v) (now : ℤ) : OfferedInv P (start v now) where
  inv := inv_start h now
  pos := Nat.one_pos
  passes := fun x hx => by
    rcases mem_passes.1 hx with h | h | h <;> cases h
  pass := trivial

theorem OfferedInv.kept (h : OfferedInv P s) (hs : Stepped P s act s')
    (hact : ∀ i ids, act ≠ .compact i ids) (hx : x ∈ s.passes) : XferOk P s' x :=
  (h.passes x hx).grow (stepped_grows hs) fun _ p hp ha =>
    .inr ⟨p, records_kept hs hact _ hp, ha⟩

theorem OfferedInv.goes (h : OfferedInv P s) (hs : Stepped P s act s') : PassOk P s' s.pass :=
  h.pass.grow (fun _ hx => h.xferOk hx) (stepped_grows hs) (stepped_above hs)

/-- A step that saves nothing. -/
theorem OfferedInv.next (h : OfferedInv P s) (hs : Stepped P s act s')
    (hact : ∀ i ids, act ≠ .compact i ids) (hx : s'.xfer = s.xfer ∨ s'.xfer = none)
    (hsv : s'.saved = s.saved ∨ s'.saved = [])
    (hpx : ∀ x, s'.pass.xfer = some x → x ∈ s.passes) (hp : PassOk P s' s'.pass) :
    OfferedInv P s' where
  inv := inv_step h.inv hs
  pos := h.pos.trans_le (stepped_grows hs).active
  passes := by
    intro x hmem
    refine h.kept hs hact ?_
    rcases mem_passes.1 hmem with hm | hm | hm
    · rcases hx with hx | hx
      · exact mem_passes.2 (.inl (hx ▸ hm))
      · cases hx.symm.trans hm
    · rcases hsv with hsv | hsv
      · exact mem_passes.2 (.inr (.inl (hsv ▸ hm)))
      · rw [hsv] at hm
        cases hm
    · exact hpx x hm
  pass := hp

/-- A step that saves progress. -/
theorem OfferedInv.save (h : OfferedInv P s) (hs : Stepped P s act s')
    (hact : ∀ i ids, act ≠ .compact i ids) (hx : XferOk P s' x)
    (hxf : s'.xfer = Transition.keepXfer Xfer.toXfer x s.xfer)
    (hsv : s'.saved = Transition.putXfer Xfer.toXfer x s.saved)
    (hpx : ∀ y, s'.pass.xfer = some y → y = x) (hp : PassOk P s' s'.pass) :
    OfferedInv P s' where
  inv := inv_step h.inv hs
  pos := h.pos.trans_le (stepped_grows hs).active
  passes := by
    intro y hmem
    rcases mem_passes.1 hmem with hm | hm | hm
    · rw [hxf] at hm
      obtain ⟨y', hy', heq⟩ := Option.map_eq_some_iff.1 hm
      split_ifs at heq
      · exact heq ▸ hx
      · exact heq ▸ h.kept hs hact (mem_passes.2 (.inl hy'))
    · rw [hsv] at hm
      rcases List.mem_cons.1 hm with rfl | hm
      · exact hx
      · exact h.kept hs hact (mem_passes.2 (.inr (.inl (List.mem_of_mem_filter hm))))
    · exact hpx y hm ▸ hx
  pass := hp

omit [DecidableEq κ] in
theorem afterNode_passes (s : State κ) (a : Pins.Action κ) (n : Pins.State κ) :
    ((s.afterNode a n).xfer = s.xfer ∨ (s.afterNode a n).xfer = none) ∧
      (s.afterNode a n).saved = s.saved ∧
      ((s.afterNode a n).pass = s.pass ∨ (s.afterNode a n).pass = .idle) := by
  unfold State.afterNode
  split
  · split <;> exact ⟨.inl rfl, rfl, .inl rfl⟩
  · exact ⟨.inr rfl, rfl, .inr rfl⟩
  · exact ⟨.inl rfl, rfl, .inl rfl⟩

omit [DecidableEq κ] in
theorem sealActive_passes (s : State κ) (o : SealOut) : (s.sealActive o).1.xfer = s.xfer ∧
    (s.sealActive o).1.saved = s.saved ∧ (s.sealActive o).1.pass = s.pass := by
  rcases sealActive_cases s o with hs | hs <;> rw [hs] <;> exact ⟨rfl, rfl, rfl⟩

omit [DecidableEq κ] in
theorem adoptTransition_pass (P : Params κ) (s : State κ) (v : View) (o : SealOut) :
    (s.adoptTransition P v o).pass = s.pass := by
  rcases adoptTransition_cases P s v o with hs | ⟨x, -, hs⟩ | ⟨m, top, x, hm, -, -, -, -, -, -, hs⟩
  · rw [hs]
  · rw [hs]
  · have hp := (sealActive_passes s o).2.2
    rw [hm] at hp
    rw [hs]
    exact hp

omit [DecidableEq κ] in
theorem sealActive_lt (h : StoreOk s) (hpos : 0 < s.active) (o : SealOut) :
    (s.sealActive o).2 < (s.sealActive o).1.active := by
  have hb := (h.sealActive o).below
  have hact := hpos.trans_le (sealActive_content s o).1
  show (if o.listed then (s.sealActive o).1.node.segments.getLast?.getD 0 else 0) < _
  split_ifs
  · cases hl : (s.sealActive o).1.node.segments.getLast? with
    | none => exact hact
    | some p => exact hb p (List.mem_of_getLast? hl)
  · exact hact

omit [DecidableEq κ] in
theorem xferOk_new (hb : x.born = s.log.length) (htop : x.sealID < s.active ∧ x.sealID2 < s.active)
    (hd : x.done = []) (hc : x.cover = false) (hh : x.held = s.node.records) : XferOk P s x where
  born := hb.le
  top := htop
  done := by simp [hd]
  held := fun e he => .inr ⟨e.2, hh ▸ he, Xfer.ahead_iff.2 ⟨by simp [hd], by simp [hc]⟩⟩

omit [DecidableEq κ] in
/-- An adoption finds a pass or begins one. -/
theorem adoptTransition_passes (h : OfferedInv P s) (v : View) (o : SealOut)
    (hy : (s.adoptTransition P v o).xfer = some y ∨ y ∈ (s.adoptTransition P v o).saved) :
    y ∈ s.passes ∨ XferOk P (s.adoptTransition P v o) y := by
  have hold : s.xfer = some y ∨ y ∈ s.saved → y ∈ s.passes :=
    fun hy => mem_passes.2 (hy.imp_right .inl)
  rcases adoptTransition_cases P s v o with
    hs | ⟨x, hx, hs⟩ | ⟨m, top, x, hm, hid, hid2, hd, hc, hh, hb, hs⟩ <;> rw [hs] at hy ⊢
  · exact .inl (hold hy)
  · rcases hy with hy | hy
    · cases hy
      exact .inl (hold (.inr hx))
    · exact .inl (hold (.inr hy))
  · have hlt := sealActive_lt h.inv.store h.pos o
    have hpos := h.pos.trans_le (sealActive_content s o).1
    have hsv := (sealActive_passes s o).2.1
    rw [hm] at hlt hpos hsv
    have hnew : XferOk P { m with
        xfer := some x, saved := Transition.putXfer Xfer.toXfer x m.saved } x :=
      xferOk_new hb ⟨hid ▸ hlt, hid2 ▸ hpos⟩ hd hc hh
    rcases hy with hy | hy
    · cases hy
      exact .inr hnew
    · rcases List.mem_cons.1 hy with rfl | hy
      · exact .inr hnew
      · have hy : y ∈ m.saved := List.mem_of_mem_filter hy
        exact .inl (hold (.inr (hsv ▸ hy)))

/-! ## A visit -/

/-- A visit offers all keys of its pack. -/
theorem visiting_visit (h : OfferedInv P s) (hx : XferOk P s x) (hlim : id ≤ x.limit)
    (hid : v.pending.map Pending.id = some x.id) (hsame : sameIDs v s.view)
    (hn : s'.node = s.node) (hl : s'.log = (s.visit P id v v.pending).2 ++ s.log) :
    Visiting P s' (s.visit P id v v.pending).1 x := by
  obtain ⟨l, hmem, hf, hown⟩ := exists_layout (κ := κ) hsame (.inr rfl)
  have hfor : (v.pending.map Pending.id).getD v.placementEpoch = x.id := by rw [hid]; rfl
  refine ⟨hlim, hfor, fun k hk => ?_, fun hd k hk => ?_⟩
  · rw [hn] at hk
    exact List.mem_map.2 ⟨(k, id), List.mem_filter.2 ⟨hk, by simp⟩, rfl⟩
  · have hforID : (s.visit P id v v.pending).1.forID = x.id := hfor
    have hspec := visit_spec hd hk
    rw [hforID] at hspec
    unfold Passed
    rw [hl, since_append hx.born]
    rcases hspec with hskip | hgoals
    · exact .inl (List.mem_append_left _ hskip)
    · refine .inr (.inr ⟨l, Known.append ⟨s.view, h.inv.view.view, hmem⟩ _, hf.trans hfor,
        fun t ht hne => ?_⟩)
      rw [hown] at ht
      rcases hgoals t ht hne with htodo | ⟨hspare, -⟩
      · exact .inl htodo
      · exact .inr (.inr (List.mem_append_left _ hspare))

theorem Visiting.offer {c : Visit κ} {batch confirmed : List κ} {b : Bool} (h : Visiting P s c x)
    (hx : XferOk P s x) (hn : s'.node = s.node)
    (hl : s'.log = confirmed.map (.confirm t) ++ batch.map (.offer c.forID t) ++ s.log) :
    Visiting P s' { c with
      todo := c.todo.filter fun e => !(e.1 = t ∧ e.2 ∈ batch), replicated := b } x := by
  refine ⟨h.limit, h.forID, fun k hk => h.keys k (hn ▸ hk), fun hd k hk => ?_⟩
  rw [hl]
  refine (h.passed hd k hk).append hx.born fun t' ht' => ?_
  by_cases hb : t' = t ∧ k ∈ batch
  · obtain ⟨rfl, hb⟩ := hb
    exact .inr (List.mem_append_right _ (List.mem_map.2 ⟨k, hb, by rw [h.forID]⟩))
  · exact .inl (List.mem_filter.2 ⟨ht', by simpa [-not_and, not_and_or] using hb⟩)

omit [DecidableEq κ] in
theorem XferOk.marked (h : XferOk P s x) (deferred : List ℕ) (primary finished : Bool) :
    XferOk P s { x with deferred := deferred, primary := primary, finished := finished } :=
  ⟨h.born, h.top, h.done, h.held⟩

omit [DecidableEq κ] in
/-- A pack is done when all its keys are passed. -/
theorem XferOk.done_pack {x' : Xfer κ} (h : XferOk P s x) (hlt : id < s.active)
    (hx' : x' = { x with done := id :: x.done, deferred := x.deferred.filter (· ≠ id) })
    (hpack : ∀ k, (k, id) ∈ s.node.records → Passed P s.log x k fun _ => False) :
    XferOk P s x' := by
  subst hx'
  refine ⟨h.born, h.top, fun p hp => ?_, fun e he => ?_⟩
  · rcases List.mem_cons.1 hp with rfl | hp
    · exact hlt
    · exact h.done p hp
  · rcases h.held e he with hp | ⟨p, hp, ha⟩
    · exact .inl hp
    · by_cases heq : p = id
      · subst heq
        exact .inl (hpack e.1 hp)
      · obtain ⟨hnd, hcov⟩ := Xfer.ahead_iff.1 ha
        refine .inr ⟨p, hp, Xfer.ahead_iff.2 ⟨fun hmem => ?_, hcov⟩⟩
        exact (List.mem_cons.1 hmem).elim heq hnd

omit [DecidableEq κ] in
/-- The second round covers what was sealed since the first. -/
theorem XferOk.cover_round {o : SealOut} (h : XferOk P s x) (hi : Inv s) (hpos : 0 < s.active)
    (hc : x.cover = false) (ho : o.compacted = true ∧ o.listed = true)
    (hbehind : ∀ p ∈ s.node.segments, p ≤ x.limit → x.Behind p)
    (hlog : s'.log = s.log) (hact : s'.active = (s.sealActive o).1.active)
    (hnode : s'.node = (s.sealActive o).1.node) :
    XferOk P s' { x with primary := true, cover := true, sealID2 := (s.sealActive o).2 } := by
  have hle := (sealActive_content s o).1
  have hlt := sealActive_lt hi.store hpos o
  refine ⟨hlog ▸ h.born, ⟨?_, hact ▸ hlt⟩, fun p hp => ?_, fun e he => ?_⟩
  · rw [hact]
    exact h.top.1.trans_le hle
  · rw [hact]
    exact (h.done p hp).trans_le hle
  · rw [hlog]
    rcases h.held e he with hp | ⟨p, hp, ha⟩
    · exact .inl hp
    · obtain ⟨hnd, -⟩ := Xfer.ahead_iff.1 ha
      -- the pack is sealed by now, and the first round left nothing up to its seal
      have hroll : s.sealActive o = (s.roll, s.roll.node.segments.getLast?.getD 0) := by
        simp [State.sealActive, ho.1, ho.2]
      have hlast : (s.sealActive o).2 = s.active := by
        rw [hroll]
        simp [State.roll]
      have hgt : x.sealID < p := by
        by_contra hle
        have hlim : x.limit = x.sealID := by simp [Xfer.limit, hc]
        rcases hi.store.records _ hp with heq | hseg
        · have := h.top.1
          simp only at heq
          omega
        · rcases hbehind p hseg (by omega) with hd | hd
          · exact hnd hd
          · rw [hc] at hd
            cases hd.1
      have hle2 : p ≤ s.active := by
        rcases hi.store.records _ hp with heq | hseg
        · exact heq.le
        · exact (hi.store.below _ hseg).le
      refine .inr ⟨p, ?_, Xfer.ahead_iff.2 ⟨hnd, fun _ => ⟨hgt, hlast ▸ hle2⟩⟩⟩
      rw [hnode, hroll]
      exact hp

omit [DecidableEq κ] in
theorem XferOk.finished (h : XferOk P s x) (hi : Inv s) (hc : x.cover = true)
    (hbehind : ∀ p ∈ s.node.segments, p ≤ x.limit → x.Behind p) :
    ∀ e ∈ x.held, Passed P s.log x e.1 fun _ => False := by
  intro e he
  rcases h.held e he with hp | ⟨p, hp, ha⟩
  · exact hp
  · obtain ⟨hnd, hcov⟩ := Xfer.ahead_iff.1 ha
    obtain ⟨hgt, hle⟩ := hcov hc
    have hlim : x.limit = x.sealID2 := by simp [Xfer.limit, hc]
    have := h.top.2
    rcases hi.store.records _ hp with heq | hseg
    · simp only at heq
      omega
    · rcases hbehind p hseg (by omega) with hd | hd
      · exact absurd hd hnd
      · omega

/-! ## The rules -/

/-- Whether a sweep leaves a pass what it is still to visit: it may move a record before the cover
round, and drop one as corrupt or garbage. -/
def leavesAhead (P : Params κ) (s : State κ) (si : Pins.SweepInput κ) (cur : View) (ids : List ℕ)
    (x : Xfer κ) : Bool :=
  ∀ e ∈ s.node.records, e.2 ∈ ids → x.ahead e.2 = true →
    if s.node.live P.toParams si (inWriteSet P cur) (fun id => s.settled id cur) e.1 then
      x.cover = false
    else s.node.isCorrupt e.1 = true ∨ si.owned e.1 = true

/-- The rules: a pass is for the transition its view is in; the index of a pack is read, with a
placement of the view's ids; the seal before the cover round succeeds; and sweeps leave alone what
is ahead. -/
def careful (P : Params κ) (s : State κ) : Action κ → Bool
  | .reread _ =>
    match s.pass, s.xfer with
    | .rereading v, some x => v.pending.map Pending.id = some x.id
    | _, _ => true
  | .visit scanned =>
    match s.pass with
    | .walking v x segs _ =>
      match x.nextPack segs with
      | none => true
      | some (id, _) => id ∈ s.node.segments → scanned = true ∧ sameIDs v s.view = true
    | _ => true
  | .close o =>
    match s.pass with
    | .ending _ x true => x.cover || (o.compacted && o.listed)
    | _ => true
  | .compact i ids =>
    match s.node.sweeps i, s.cur i with
    | some (.compacting si), some cur => ∀ x ∈ s.passes, leavesAhead P s si cur ids x = true
    | _, _ => true
  | _ => true

theorem mem_garbage {i : ℕ} {si : Pins.SweepInput κ} {cur : View} {ids : List ℕ} {p : ℕ}
    (hsw : s.node.sweeps i = some (.compacting si)) (hk : (k, p) ∈ s.node.records) (hp : p ∈ ids)
    (hdead : s.node.isCorrupt k = true ∨ si.owned k = true)
    (hlive : s.node.live P.toParams si (inWriteSet P cur) (fun id => s.settled id cur) k = false) :
    k ∈ s.garbage P i ids cur := by
  unfold State.garbage
  rw [hsw]
  refine List.mem_map.2 ⟨(k, p), List.mem_filter.2 ⟨hk, ?_⟩, rfl⟩
  simp [hp, hdead, hlive]

theorem offeredInv_compact {i : ℕ} {ids : List ℕ} (h : OfferedInv P s)
    (hok : careful P s (.compact i ids) = true) (hstep : step P s (.compact i ids) = some s') :
    OfferedInv P s' := by
  have hs := step_stepped hstep
  have hi := inv_step h.inv hs
  have hg := stepped_grows hs
  have hgo := h.goes hs
  simp only [step] at hstep
  split at hstep
  · cases hstep
  · rename_i cur hcur
    obtain ⟨n, hn, rfl⟩ := Option.map_eq_some_iff.1 hstep
    obtain ⟨si, hsw, -, hstay, hmove, -⟩ := compact_cases hn
    simp only [careful, hsw, hcur, decide_eq_true_eq] at hok
    refine ⟨hi, h.pos, fun x hx => (h.passes x hx).grow hg fun k p hk ha => ?_, hgo⟩
    have hx' := h.passes x hx
    by_cases hp : p ∈ ids
    · have hrule := of_decide_eq_true (hok x hx) (k, p) hk hp ha
      by_cases hlive : s.node.live P.toParams si (inWriteSet P cur)
          (fun id => s.settled id cur) k = true
      · -- the record is moved to the active segment
        rw [if_pos hlive] at hrule
        refine .inr ⟨s.active, hmove _ hk hlive hp, Xfer.ahead_iff.2 ⟨?_, by simp [hrule]⟩⟩
        exact fun hd => (hx'.done _ hd).false
      · -- it is dropped as corrupt or garbage
        rw [if_neg hlive] at hrule
        refine .inl (.inr (.inl ?_))
        rw [since_append hx'.born]
        exact List.mem_append_left _ (List.mem_map.2 ⟨k,
          mem_garbage hsw hk hp hrule (by simpa using hlive), rfl⟩)
    · exact .inr ⟨p, hstay _ hk hp, ha⟩

/-- A careful step keeps the invariant. -/
theorem offeredInv_step (h : OfferedInv P s) (hok : careful P s act = true)
    (hstep : step P s act = some s') : OfferedInv P s' := by
  by_cases hact : ∃ i ids, act = .compact i ids
  · obtain ⟨i, ids, rfl⟩ := hact
    exact offeredInv_compact h hok hstep
  have hact : ∀ i ids, act ≠ .compact i ids := fun i ids hids => hact ⟨i, ids, hids⟩
  have hs := step_stepped hstep
  have hi := inv_step h.inv hs
  have hgo := h.goes hs
  have hkept : ∀ {x}, x ∈ s.passes → XferOk P s' x := fun hx => h.kept hs hact hx
  have hown : ∀ {x}, s.pass.xfer = some x → x ∈ s.passes :=
    fun hx => mem_passes.2 (.inr (.inr hx))
  have hs' := hs
  cases hs with
  | @node a n ha hn =>
    obtain ⟨h1, h2, h3⟩ := afterNode_passes s a n
    refine h.next hs' hact h1 (.inl h2) (fun x hx => ?_) ?_
    · rcases h3 with h3 | h3 <;> rw [h3] at hx
      · exact hown hx
      · cases hx
    · rcases h3 with h3 | h3 <;> rw [h3]
      · exact hgo
      · trivial
  | compact ha hc hn => exact absurd ha (hact _ _)
  | committed => exact h.next hs' hact (.inr rfl) (.inr rfl) (fun _ hx => hown hx) hgo
  | @onEpoch v o ha hv =>
    have hpass := adoptTransition_pass P s v o
    refine ⟨hi, h.pos.trans_le (stepped_grows hs').active, fun y hy => ?_, hpass.symm ▸ hgo⟩
    rcases mem_passes.1 hy with hy | hy | hy
    · exact (adoptTransition_passes h v o (.inl hy)).elim hkept id
    · exact (adoptTransition_passes h v o (.inr hy)).elim hkept id
    · exact hkept (hown (hpass ▸ hy))
  | @adoptPass v o ha hv =>
    refine ⟨hi, h.pos.trans_le (stepped_grows hs').active, fun y hy => ?_, trivial⟩
    have hnew : y ∈ s.passes ∨ XferOk P (s.adoptTransition P v o) y := by
      rcases mem_passes.1 hy with hy | hy | hy
      · exact adoptTransition_passes h v o (.inl hy)
      · exact adoptTransition_passes h v o (.inr hy)
      · cases hy
    exact hnew.elim hkept fun hx => ⟨hx.born, hx.top, hx.done, hx.held⟩
  | @wiped o stamps hst =>
    obtain ⟨h1, h2, h3⟩ := sealActive_passes s o
    refine h.next hs' hact (.inl h1) (.inl h2) (fun x hx => hown (h3 ▸ hx)) ?_
    show PassOk P _ (s.sealActive o).1.pass
    exact h3.symm ▸ hgo
  | @walk v p x hp hx hv =>
    refine h.next hs' hact (.inl rfl) (.inl rfl) (fun y hy => ?_) ⟨?_, h.inv.store.sorted, ?_⟩
    · cases hy
      exact mem_passes.2 (.inl hx)
    · rcases hv with hfor | ⟨hpass, listed, rfl⟩
      · rw [hp, Option.map_some, (of_decide_eq_true hfor).1]
      · simpa [careful, hpass, hx] using hok
    · exact fun _ q hq _ => .inl hq
  | @ending v x segs allDone hp hn =>
    obtain ⟨hid, hsorted, hall⟩ : PassOk P s (.walking v x segs allDone) := hp ▸ h.pass
    refine h.next hs' hact (.inl rfl) (.inl rfl) (fun y hy => hown (by rw [hp]; exact hy)) ⟨hid, ?_⟩
    intro hd q hq hle
    exact (hall hd q hq hle).elim (behind_of_nextPack hsorted hn q · hle) id
  | @visit v x segs rest allDone id ha hp hn hseg =>
    obtain ⟨hid, hsorted, -⟩ : PassOk P s (.walking v x segs allDone) := hp ▸ h.pass
    have hx : s.pass.xfer = some x := by rw [hp]; rfl
    have hsame : sameIDs v s.view = true := by
      subst ha
      simp only [careful, hp, hn] at hok
      exact ((of_decide_eq_true hok) hseg).2
    obtain ⟨hlim, hrest⟩ := nextPack_le hn
    refine h.next hs' hact (.inl rfl) (.inl rfl) (fun y hy => hown (hx.trans hy))
      ⟨hid, hsorted.sublist hrest.sublist, ?_⟩
    exact visiting_visit h (h.xferOk hx) hlim hid hsame rfl rfl
  | @unread v x segs rest allDone scanned id ha hp hn hseg =>
    have hx : s.pass.xfer = some x := by rw [hp]; rfl
    have hgone : id ∉ s.node.segments := by
      subst ha
      intro hmem
      simp only [careful, hp, hn] at hok
      exact hseg ⟨((of_decide_eq_true hok) hmem).1, hmem⟩
    have hlt : id < s.active := (nextPack_le hn).1.trans_lt (h.xferOk hx).limit
    refine h.save hs' hact ((hkept (hown hx)).done_pack hlt rfl fun k hk => ?_) rfl rfl
      (fun y hy => by cases hy) trivial
    -- the pack was taken away by a sweep
    rcases h.inv.store.records _ hk with heq | hmem
    · exact absurd heq hlt.ne
    · exact absurd hmem hgone
  | @offer c w t batch r hp hb =>
    rcases w with _ | ⟨v, x, rest⟩
    · exact h.next hs' hact (.inl rfl) (.inl rfl) (fun y hy => by cases hy) trivial
    · have hx : s.pass.xfer = some x := by rw [hp]; rfl
      obtain ⟨hid, hrest, hv⟩ : PassOk P s (.visiting c (some (v, x, rest))) := hp ▸ h.pass
      exact h.next hs' hact (.inl rfl) (.inl rfl) (fun y hy => hown (hx.trans hy))
        ⟨hid, hrest, hv.offer (h.xferOk hx) rfl rfl⟩
  | @deferred c v x rest hp =>
    have hx : s.pass.xfer = some x := by rw [hp]; rfl
    obtain ⟨hid, hrest, -⟩ : PassOk P s (.visiting c (some (v, x, rest))) := hp ▸ h.pass
    refine h.save hs' hact ((hkept (hown hx)).marked _ x.primary x.finished) rfl rfl
      (fun y hy => ?_) ⟨hid, hrest, fun hall => by cases hall⟩
    exact (Option.some.inj hy).symm
  | @visited c v x rest hp ht hd =>
    have hx : s.pass.xfer = some x := by rw [hp]; rfl
    obtain ⟨-, -, hv⟩ : PassOk P s (.visiting c (some (v, x, rest))) := hp ▸ h.pass
    have hlt : c.id < s.active := hv.limit.trans_lt (h.xferOk hx).limit
    refine h.save hs' hact ((hkept (hown hx)).done_pack hlt rfl fun k hk => ?_) rfl rfl
      (fun y hy => by cases hy) trivial
    have hnone : ∀ t, (t, k) ∈ c.todo → False ∨ .offer x.id t k ∈ ([] : List (Event κ)) := by
      simp [ht]
    exact (hv.passed hd k (hv.keys k hk)).append (h.xferOk hx).born hnone
  | @primary v x allDone hp =>
    have hx : s.pass.xfer = some x := by rw [hp]; rfl
    exact h.save hs' hact ((hkept (hown hx)).marked x.deferred true x.finished) rfl rfl
      (fun y hy => by cases hy) trivial
  | @cover v x o ha hp hc =>
    have hx : s.pass.xfer = some x := by rw [hp]; rfl
    obtain ⟨-, hall⟩ : PassOk P s (.ending v x true) := hp ▸ h.pass
    have ho : o.compacted = true ∧ o.listed = true := by
      subst ha
      simpa [careful, hp, hc] using hok
    obtain ⟨h1, h2, -⟩ := sealActive_passes s o
    refine h.save hs' hact ((h.xferOk hx).cover_round h.inv h.pos hc ho (hall rfl) ?_ rfl rfl)
      ?_ ?_ (fun y hy => by cases hy) trivial
    · exact (sealActive_aside s o).log
    · show Transition.keepXfer _ _ (s.sealActive o).1.xfer = _
      rw [h1]
    · show Transition.putXfer _ _ (s.sealActive o).1.saved = _
      rw [h2]
  | @finished v p x hp hc hv =>
    have hx : s.pass.xfer = some x := by rw [hp]; rfl
    obtain ⟨hid, hall⟩ : PassOk P s (.ending v x true) := hp ▸ h.pass
    refine h.save hs' hact ((hkept (hown hx)).marked x.deferred true true) rfl rfl
      (fun y hy => ?_) ⟨?_, ?_⟩
    · exact (Option.some.inj hy).symm
    · rw [hv] at hid
      exact Option.some.inj hid
    · exact (h.xferOk hx).finished h.inv hc (hall rfl)
  | _ =>
    first
    | exact h.next hs' hact (.inl rfl) (.inl rfl) (fun _ hx => hown hx) hgo
    | exact h.next hs' hact (.inl rfl) (.inl rfl) (fun _ hx => by cases hx) trivial

theorem offeredInv_run {acts : List (Action κ)} {now : ℤ} (h : Sound v)
    (hok : Machine.Along (step P) (fun s a => careful P s a) (start v now) acts)
    (hrun : Machine.run (step P) (start v now) acts = some s) : OfferedInv P s :=
  Machine.invariant_along (P := OfferedInv P) (fun _ _ _ hi hok hs => offeredInv_step hi hok hs)
    acts (offeredInv_start h now) hok hrun

theorem pending_of_done {self : NodeID} (h : casView (.done self id) v = .ok u) :
    ∃ p, v.pending = some p ∧ p.id = id := by
  simp only [casView, Change.apply, casPending] at h
  split at h
  · cases h
  · rename_i heq
    split at heq
    · cases heq
    · rename_i p hp
      split_ifs at heq with hid
      exact ⟨p, hp, not_not.1 hid⟩

/-- Done means everything was offered. -/
theorem done_offered {acts : List (Action κ)} {now : ℤ} (h : Sound v)
    (hok : Machine.Along (step P) (fun s a => careful P s a) (start v now) acts)
    (hrun : Machine.run (step P) (start v now) acts = some s)
    (hp : s.pass = .reporting id x) (hcas : casView (.done P.self id) s.reg = .ok u) :
    ∀ e ∈ x.held, .skip id e.1 ∉ since x.born s.log → .dead e.1 ∉ since x.born s.log →
      ∀ t ∈ pendingOwners P s.reg e.1, t ≠ P.self →
        .offer id t e.1 ∈ since x.born s.log ∨ .spare id t e.1 ∈ since x.born s.log := by
  intro e he hskip hdead t ht hne
  have hi := offeredInv_run h hok hrun
  obtain ⟨rfl, hpassed⟩ : PassOk P s (.reporting id x) := hp ▸ hi.pass
  obtain ⟨p, hpend, hid⟩ := pending_of_done hcas
  rcases hpassed e he with hs | hd | ⟨l, ⟨w, hw, hl⟩, hlid, hall⟩
  · exact absurd hs hskip
  · exact absurd hd hdead
  · -- the pass's placement is the one pending in the register
    obtain rfl := hi.inv.layout_eq hw hl hi.inv.past.reg (target_mem hpend) (hlid.trans hid.symm)
    have ht' : t ∈ (target p).owners P e.1 := by
      simpa [pendingOwners, hpend, Layout.owners, target] using ht
    exact (hall t ht' hne).resolve_left id

namespace Moved

/-- A pack, a transition and its adoption. -/
def adopted : List (Action ℕ) :=
  [.node (.put [7] 1)] ++ proposed.map .change ++
    [.adopt (after proposed), .onEpoch (after proposed) {}]

/-- The second round over what was sealed meanwhile. -/
def covered : List (Action ℕ) :=
  [.look, .enter true, .visit true, .close {}, .look, .enter true, .visit true, .finish, .look,
    .enter true, .visit true, .close {}]

/-- Both owners are offered the pack, and one call fails. -/
def offering : List (Action ℕ) :=
  adopted ++ [.look, .enter true, .visit true, .offer 4 ⟨some [7], some [7]⟩,
    .offer 2 ⟨none, none⟩, .finish] ++ covered

/-- The pack cannot be read. -/
def unread : List (Action ℕ) := adopted ++ [.look, .enter true, .visit false] ++ covered

end Moved

theorem done_offered_offering :
    ∃ s ∈ Machine.run (step Moved.params) (start Moved.first 1) Moved.offering,
      ∃ x ∈ s.pass.xfer, (7, 1) ∈ x.held ∧ 4 ∈ pendingOwners Moved.params s.reg 7 ∧
        (.offer 2 4 7 ∈ since x.born s.log ∨ .spare 2 4 7 ∈ since x.born s.log) := by
  have hok : Machine.Along (step Moved.params) (fun s a => careful Moved.params s a)
      (start Moved.first 1) Moved.offering := by decide +kernel
  have hend : ∃ s ∈ Machine.run (step Moved.params) (start Moved.first 1) Moved.offering,
      ∃ x ∈ s.pass.xfer, s.pass = .reporting 2 x ∧ (7, 1) ∈ x.held ∧
        4 ∈ pendingOwners Moved.params s.reg 7 ∧ .skip 2 7 ∉ since x.born s.log ∧
        .dead 7 ∉ since x.born s.log ∧ (casView (.done 1 2) s.reg).toOption.isSome := by
    decide +kernel
  obtain ⟨s, hrun, x, hx, hp, hheld, howner, hskip, hdead, hcas⟩ := hend
  cases hc : casView (.done 1 2) s.reg with
  | error e => simp [hc, Except.toOption] at hcas
  | ok u =>
    exact ⟨s, hrun, x, hx, hheld, howner,
      done_offered (by decide) hok hrun hp hc (7, 1) hheld hskip hdead 4 howner (by decide)⟩

/-- A pack whose index cannot be read is counted as done: the node reports itself done, and has
offered the key to no one. -/
theorem done_unoffered : Sound Moved.first ∧
    ∃ s ∈ Machine.run (step Moved.params) (start Moved.first 1) Moved.unread,
      ∃ x ∈ s.pass.xfer, s.pass = .reporting 2 x ∧ (7, 1) ∈ x.held ∧
        (casView (.done 1 2) s.reg).toOption.isSome ∧ 4 ∈ pendingOwners Moved.params s.reg 7 ∧
        .skip 2 7 ∉ s.log ∧ .dead 7 ∉ s.log ∧ .offer 2 4 7 ∉ s.log ∧ .spare 2 4 7 ∉ s.log := by
  decide +kernel

end Dstore.Cluster.Reconcile

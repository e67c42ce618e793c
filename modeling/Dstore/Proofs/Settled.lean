import Dstore.Proofs.Reconcile

/-!
# What a settled pack says of its owners

When a pack is stamped as replicated, everybody the pass is to leave a key with has answered that it
holds the key, skipped keys and spared co-owners apart. The targets come from the placement of the
moment, which may be of another view than the one whose id goes on the stamp: then the stamp says
nothing (`settled_unasked`).
-/

namespace Dstore.Cluster.Reconcile

variable {κ : Type} {P : Params κ} {s s' : State κ} {act : Action κ} {v u : View} {l : Layout}
  {log new : List (Event κ)} {k : κ} {t : NodeID} {f id : ℕ}

/-- The node `t` answered that it holds `k`, after a view with placement `f` was adopted. -/
def Confirmed (log : List (Event κ)) (f : ℕ) (t : NodeID) (k : κ) : Prop :=
  ∃ later earlier, log = later ++ .confirm t k :: earlier ∧
    ∃ u, .adopt u ∈ earlier ∧ ∃ l ∈ layouts u, l.id = f

variable {si : Pins.SweepInput κ} {cur : View}

variable {c : Visit κ} {acts : List (Action κ)} {now : ℤ}

theorem Confirmed.append (h : Confirmed log f t k) (new : List (Event κ)) :
    Confirmed (new ++ log) f t k := by
  obtain ⟨later, earlier, rfl, hu⟩ := h
  exact ⟨new ++ later, earlier, by simp, hu⟩

theorem Confirmed.mem (h : Confirmed log f t k) : .confirm t k ∈ log := by
  obtain ⟨later, earlier, rfl, -⟩ := h
  simp

theorem confirmed_of_mem (hk : .confirm t k ∈ new) (hu : .adopt u ∈ log) (hl : l ∈ layouts u) :
    Confirmed (new ++ log) l.id t k := by
  obtain ⟨later, earlier, rfl⟩ := List.append_of_mem hk
  exact ⟨later, earlier ++ log, by simp, u, List.mem_append_right _ hu, l, hl, rfl⟩

/-- The owner was spared the key, which it had confirmed or which some pass has skipped. -/
def Spared (log : List (Event κ)) (f : ℕ) (t : NodeID) (k : κ) : Prop :=
  .spare f t k ∈ log ∧ (.confirm t k ∈ log ∨ ∃ f', .skip f' k ∈ log)

theorem Spared.append (h : Spared log f t k) (new : List (Event κ)) :
    Spared (new ++ log) f t k :=
  ⟨List.mem_append_right _ h.1, h.2.imp (List.mem_append_right _) fun ⟨f', hf⟩ =>
    ⟨f', List.mem_append_right _ hf⟩⟩

/-- What became of a key under a placement, with `rest` still to be asked. -/
def Told (P : Params κ) (log : List (Event κ)) (l : Layout) (k : κ) (rest : NodeID → Prop) : Prop :=
  .skip l.id k ∈ log ∨ ∀ t ∈ l.owners P k, t ≠ P.self →
    rest t ∨ Confirmed log l.id t k ∨ Spared log l.id t k

theorem Told.append {rest rest' : NodeID → Prop} (h : Told P log l k rest)
    (new : List (Event κ))
    (hr : ∀ t, rest t → rest' t ∨ Confirmed (new ++ log) l.id t k) :
    Told P (new ++ log) l k rest' := by
  refine h.imp (List.mem_append_right _) fun h t ht hne => ?_
  rcases h t ht hne with h | h | h
  · exact (hr t h).imp_right .inl
  · exact .inr (.inl (h.append new))
  · exact .inr (.inr (h.append new))

/-- The placement is of a view that the node has adopted. -/
def Known (log : List (Event κ)) (l : Layout) : Prop := ∃ u, .adopt u ∈ log ∧ l ∈ layouts u

theorem Known.append (h : Known log l) (new : List (Event κ)) : Known (new ++ log) l := by
  obtain ⟨u, hu, hl⟩ := h
  exact ⟨u, List.mem_append_right _ hu, hl⟩

/-- A stamp that says replicated tells the truth. -/
def StampOk (P : Params κ) (s : State κ) : Prop :=
  ∀ id st, s.stamps id = some st → st.replicated = true → id < s.active ∧
    ∃ l, Known s.log l ∧ l.id = st.forID ∧
      ∀ ks, s.content id = some ks → ∀ k ∈ ks, Told P s.log l k fun _ => False

/-- A visit knows what it has still to offer. -/
def VisitOk (P : Params κ) (s : State κ) (c : Visit κ) : Prop :=
  c.id < s.active ∧ (∀ ks, s.content c.id = some ks → ∀ k ∈ ks, k ∈ c.keys) ∧
    ∃ l, Known s.log l ∧ l.id = c.forID ∧ (c.deferred = false → ∀ k ∈ c.keys,
      Told P s.log l k fun t => (t, k) ∈ c.todo ∨ c.replicated = false)

theorem StampOk.grow (h : StampOk P s) (hg : Grows s s')
    (hst : ∀ id st, s'.stamps id = some st → st.replicated = true → s.stamps id = some st) :
    StampOk P s' := by
  intro id st hs hr
  obtain ⟨new, hlog⟩ := hg.log
  obtain ⟨hid, l, hl, hf, hk⟩ := h id st (hst id st hs hr) hr
  rw [hlog]
  refine ⟨hid.trans_le hg.active, l, hl.append new, hf, fun ks hks k hmem => ?_⟩
  rw [hg.content id hid] at hks
  exact (hk ks hks k hmem).append new fun _ h => h.elim

theorem VisitOk.grow (h : VisitOk P s c) (hg : Grows s s') : VisitOk P s' c := by
  obtain ⟨new, hlog⟩ := hg.log
  obtain ⟨hid, hkeys, l, hl, hf, hk⟩ := h
  unfold VisitOk
  rw [hg.content c.id hid, hlog]
  exact ⟨hid.trans_le hg.active, hkeys, l, hl.append new, hf,
    fun hd k hmem => (hk hd k hmem).append new fun _ h => .inl h⟩

variable [DecidableEq κ]

theorem mem_forwardTo {keys : List κ} {r : Reply κ} (h : (forwardTo keys r).2 = [])
    (hk : k ∈ keys) : k ∈ (forwardTo keys r).1 := by
  unfold forwardTo at h ⊢
  split at h
  · obtain rfl : keys = [] := h
    cases hk
  · rename_i lacking hm
    dsimp only at h ⊢
    split_ifs at h ⊢ with hl
    · simpa [hl] using hk
    · split at h
      · exact absurd h hl
      · rename_i confirmed _
        by_cases hlack : k ∈ lacking
        · have hall := List.filter_eq_nil_iff.1 h k hlack
          refine List.mem_append_right _ (List.mem_filter.2 ⟨hlack, ?_⟩)
          simpa using hall
        · exact List.mem_append_left _ (List.mem_filter.2 ⟨hk, by simpa using hlack⟩)

/-- What is confirmed need not be offered any more. -/
theorem VisitOk.offer {batch : List κ} {r : Reply κ} (h : VisitOk P s c)
    (hid : s'.active = s.active) (hc : s'.content = s.content)
    (hl : s'.log = (forwardTo batch r).1.map (.confirm t) ++ batch.map (.offer c.forID t) ++ s.log) :
    VisitOk P s' { c with
      todo := c.todo.filter fun e => !(e.1 = t ∧ e.2 ∈ batch)
      replicated := c.replicated && (forwardTo batch r).2.isEmpty } := by
  obtain ⟨hlt, hkeys, l, ⟨u, hu, hmem⟩, hf, hk⟩ := h
  refine ⟨hid ▸ hlt, hc ▸ hkeys, l, ?_, hf, fun hd k hkey => ?_⟩
  · rw [hl]
    exact Known.append ⟨u, hu, hmem⟩ _
  · rw [hl]
    refine (hk hd k hkey).append _ fun t' ht' => ?_
    rcases ht' with ht' | hrep
    · by_cases hb : t' = t ∧ k ∈ batch
      · obtain ⟨rfl, hb⟩ := hb
        by_cases hfail : (forwardTo batch r).2 = []
        · refine .inr (confirmed_of_mem ?_ hu hmem)
          exact List.mem_append_left _ (List.mem_map.2 ⟨k, mem_forwardTo hfail hb, rfl⟩)
        · exact .inl (.inr (by simp [hfail]))
      · exact .inl (.inl (List.mem_filter.2 ⟨ht', by simpa [-not_and, not_and_or] using hb⟩))
    · exact .inl (.inr (by simp [hrep]))

omit [DecidableEq κ] in
theorem exists_stamp (h : s.settledFor id v f = true) :
    ∃ st, s.stamps id = some st ∧ st.forID = f ∧ st.replicated = true := by
  unfold State.settledFor at h
  split at h
  · cases h
  · rename_i st hst
    obtain ⟨-, hf, hr⟩ := of_decide_eq_true h
    exact ⟨st, hst, hf, hr⟩

omit [DecidableEq κ] in
theorem StampOk.settled (hst : StampOk P s) (hi : Inv s) (hset : s.settledFor id v f = true)
    (hu : u ∈ s.past) (hl : l ∈ layouts u) (hf : l.id = f) {ks : List κ}
    (hks : s.content id = some ks) (hk : k ∈ ks) : Told P s.log l k fun _ => False := by
  obtain ⟨st, hstamp, hfor, hr⟩ := exists_stamp hset
  obtain ⟨-, l', ⟨u', hu', hl'⟩, hf', hall⟩ := hst id st hstamp hr
  obtain rfl := hi.layout_eq hu' hl' hu hl (hf'.trans (hfor.trans hf.symm))
  exact hall ks hks k hk

/-- A new visit has all of its pack to offer. -/
theorem visitOk_visit (hi : Inv s) (hst : StampOk P s) (hid : id ∈ s.node.segments)
    (hsame : sameIDs v s.view) {p : Option Pending} (hp : p = none ∨ p = v.pending)
    (hg : Grows s s') (hl : s'.log = (s.visit P id v p).2 ++ s.log) :
    VisitOk P s' (s.visit P id v p).1 := by
  have hlt := hi.store.below id hid
  obtain ⟨l, hmem, hf, hown⟩ := exists_layout (κ := κ) hsame hp
  refine ⟨hlt.trans_le hg.active, fun ks hks k hk => ?_, l, ?_, hf, fun hd k hk => ?_⟩
  · -- what the pack held when it was sealed is still there
    have hrec := hi.store.whole id hid ks ((hg.content id hlt).symm.trans hks) k hk
    exact List.mem_map.2 ⟨(k, id), List.mem_filter.2 ⟨hrec, by simp⟩, rfl⟩
  · rw [hl]
    exact Known.append ⟨s.view, hi.view.view, hmem⟩ _
  · rw [hl]
    rcases visit_spec hd hk with hskip | hgoals
    · exact .inl (List.mem_append_left _ (hf ▸ hskip))
    · refine .inr fun t ht hne => ?_
      rw [hown] at ht
      rcases hgoals t ht hne with htodo | ⟨hspare, howner, hset⟩
      · exact .inl (.inl htodo)
      · refine .inr (.inr ⟨List.mem_append_left _ (hf ▸ hspare), ?_⟩)
        -- the pack was settled for the placement in force, whose owner `t` is
        have hrec : (k, id) ∈ s.node.records := by
          obtain ⟨e, he, rfl⟩ := List.mem_map.1 hk
          obtain ⟨he, heq⟩ := List.mem_filter.1 he
          rw [decide_eq_true_eq] at heq
          rwa [← heq]
        obtain ⟨ks, hks, hmem⟩ := hi.store.content _ hrec hid
        have hpe : s.view.placementEpoch = v.placementEpoch := by
          unfold sameIDs at hsame
          exact (of_decide_eq_true hsame).1.symm
        rcases hst.settled hi hset (hi.view.adopted _ hi.view.view) (current_mem s.view) hpe hks
          hmem with hskip | hold
        · exact .inr ⟨_, List.mem_append_right _ hskip⟩
        · rcases hold t howner hne with h | h | h
          · exact h.elim
          · exact .inl (List.mem_append_right _ h.mem)
          · exact (h.append _).2

omit [DecidableEq κ] in
theorem StampOk.stamp (h : StampOk P s) (hv : VisitOk P s c) (ht : c.todo = [])
    (hd : c.deferred = false) : StampOk P (s.stampPack c) := by
  intro id st hst hr
  by_cases hid : id = c.id
  · subst hid
    have hnew : (s.stampPack c).stamps c.id = some ⟨c.inc, c.forID, c.replicated⟩ :=
      Function.update_self ..
    obtain rfl := Option.some.inj (hnew.symm.trans hst)
    obtain ⟨hlt, hkeys, l, hl, hf, hk⟩ := hv
    refine ⟨hlt, l, hl, hf, fun ks hks k hmem => ?_⟩
    refine (hk hd k (hkeys ks hks k hmem)).append [] fun t hrest => ?_
    rcases hrest with htodo | hrep
    · rw [ht] at htodo
      cases htodo
    · cases hrep.symm.trans hr
  · exact h id st ((Function.update_of_ne hid ..).symm.trans hst) hr

/-- Whether a visit takes its view and its placement from views with the same placements. -/
def oneView (s : State κ) : Action κ → Bool
  | .visit _ =>
    match s.pass with
    | .walking v _ _ _ => sameIDs v s.view
    | _ => true
  | .audit _ _ =>
    match s.pass with
    | .resting v => sameIDs v s.view
    | _ => true
  | _ => true

/-- The stamps and the visit in progress tell the truth. -/
structure SettledInv (P : Params κ) (s : State κ) : Prop where
  inv : Inv s
  stamps : StampOk P s
  visit : ∀ c w, s.pass = .visiting c w → VisitOk P s c ∧ (w = none → c.deferred = false)

omit [DecidableEq κ] in
theorem settledInv_start (h : Sound v) (now : ℤ) : SettledInv P (start v now) where
  inv := inv_start h now
  stamps := fun id st hst => by cases hst
  visit := fun c w hp => by cases hp

omit [DecidableEq κ] in
theorem SettledInv.frame (h : SettledInv P s) (hi : Inv s') (hg : Grows s s')
    (hst : ∀ id st, s'.stamps id = some st → st.replicated = true → s.stamps id = some st)
    (hp : ∀ c w, s'.pass = .visiting c w → s.pass = .visiting c w) : SettledInv P s' where
  inv := hi
  stamps := h.stamps.grow hg hst
  visit := fun c w hc => ((h.visit c w (hp c w hc)).imp_left (·.grow hg))

omit [DecidableEq κ] in
theorem SettledInv.aside (h : SettledInv P s) (hi : Inv s') (hg : Grows s s') (ha : Aside s s') :
    SettledInv P s' := by
  refine h.frame hi hg (fun id st hst _ => ha.stamps ▸ hst) fun c w hp => ?_
  rcases ha.pass with hpass | hpass
  · exact hpass ▸ hp
  · cases hpass.symm.trans hp

/-- A step under one view keeps the stamps true. -/
theorem settledInv_step (h : SettledInv P s) (hok : oneView s act = true)
    (hstep : step P s act = some s') : SettledInv P s' := by
  have hs := step_stepped hstep
  have hi := inv_step h.inv hs
  have hg := stepped_grows hs
  cases hs with
  | node ha hn => exact h.aside hi hg (afterNode_aside ..)
  | onEpoch ha hv => exact h.aside hi hg (adoptTransition_aside ..)
  | adoptPass ha hv =>
    refine h.frame hi hg (fun id st hst _ => ?_) fun c w hp => by cases hp
    rw [← (adoptTransition_aside P s _ _).stamps]
    exact hst
  | wiped hst =>
    refine h.frame hi hg hst fun c w hp => ?_
    rcases (sealActive_aside s _).pass with hpass | hpass
    · exact hpass ▸ hp
    · cases hpass.symm.trans hp
  | cover ha hp hc =>
    refine h.frame hi hg (fun id st hst _ => ?_) fun c w hp => by cases hp
    rw [← (sealActive_aside s _).stamps]
    exact hst
  | visit ha hp hn hid =>
    subst ha
    simp only [oneView, hp] at hok
    refine ⟨hi, h.stamps.grow hg fun _ _ hst _ => hst, fun c w hc => ?_⟩
    cases hc
    exact ⟨visitOk_visit h.inv h.stamps hid hok (.inr rfl) hg rfl, by simp⟩
  | audit ha hp hid =>
    subst ha
    simp only [oneView, hp] at hok
    refine ⟨hi, h.stamps.grow hg fun _ _ hst _ => hst, fun c w hc => ?_⟩
    cases hc
    exact ⟨visitOk_visit h.inv h.stamps hid hok (.inl rfl) hg rfl, fun _ => visit_none_deferred⟩
  | offer hp hb =>
    refine ⟨hi, h.stamps.grow hg fun _ _ hst _ => hst, fun c w hc => ?_⟩
    cases hc
    have hv := h.visit _ _ hp
    exact ⟨hv.1.offer rfl rfl rfl, hv.2⟩
  | audited hp ht =>
    have hv := h.visit _ _ hp
    exact ⟨hi, h.stamps.stamp hv.1 ht (hv.2 rfl), fun c w hc => by cases hc⟩
  | visited hp ht hd =>
    have hv := h.visit _ _ hp
    exact ⟨hi, h.stamps.stamp hv.1 ht hd, fun c w hc => by cases hc⟩
  | _ =>
    refine h.frame hi hg (fun _ _ hst _ => hst) fun c w hc => ?_
    first
    | exact hc
    | cases hc

theorem settledInv_run (h : Sound v)
    (hok : Machine.Along (step P) (fun s a => oneView s a) (start v now) acts)
    (hrun : Machine.run (step P) (start v now) acts = some s) : SettledInv P s :=
  Machine.invariant_along (P := SettledInv P) (fun _ _ _ hi hok hs => settledInv_step hi hok hs)
    acts (settledInv_start h now) hok hrun

/-- The second clause of the sweep's predicate drops a key: the node is no owner of it, neither by
the mark nor under `cur`, and its pack is settled. -/
def DropsUnowned (P : Params κ) (s : State κ) (si : Pins.SweepInput κ) (cur : View) (k : κ) :
    Prop :=
  s.node.isCorrupt k = false ∧ si.owned k = false ∧
    s.node.live P.toParams si (inWriteSet P cur) (fun id => s.settled id cur) k = false

instance {si : Pins.SweepInput κ} {cur : View} : Decidable (DropsUnowned P s si cur k) :=
  inferInstanceAs (Decidable (_ ∧ _ ∧ _))

theorem DropsUnowned.settled (h : DropsUnowned P s si cur k) :
    inWriteSet P cur k = false ∧ ∃ id, si.eligible k = some id ∧ s.settled id cur = true := by
  obtain ⟨hc, ho, hlive⟩ := h
  unfold Pins.State.live at hlive
  rw [hc, ho] at hlive
  simp only [Bool.false_eq_true, if_false] at hlive
  split at hlive
  · cases hlive
  · rename_i id helig
    split_ifs at hlive with h1 h2 h3
    exact ⟨by simpa using h3, id, helig, by simpa using hlive⟩

theorem SettledInv.told (h : SettledInv P s) {i : ℕ}
    (hsw : s.node.sweeps i = some (.compacting si)) (hcur : s.cur i = some cur)
    (hdrop : DropsUnowned P s si cur k) : P.self ∉ owners P cur k ∧
      Told P s.log (current cur) k fun _ => False := by
  obtain ⟨hw, id, helig, hset⟩ := hdrop.settled
  have hself : P.self ∉ owners P cur k := by
    intro hmem
    simp [inWriteSet, hmem] at hw
  have hfinds : Finds s.node si.eligible := .inr ⟨i, _, si, hsw, rfl, rfl⟩
  obtain ⟨ks, hks, hk⟩ := h.inv.store.finds _ hfinds k id helig
  have hpast := h.inv.view.adopted cur (h.inv.view.cur i cur hcur)
  exact ⟨hself, h.stamps.settled h.inv hset hpast (current_mem cur) rfl hks hk⟩

/-- Forward before drop. -/
theorem dead_confirmed (h : Sound v)
    (hok : Machine.Along (step P) (fun s a => oneView s a) (start v now) acts)
    (hrun : Machine.run (step P) (start v now) acts = some s) {i : ℕ}
    (hsw : s.node.sweeps i = some (.compacting si)) (hcur : s.cur i = some cur)
    (hdrop : DropsUnowned P s si cur k)
    (hskip : .skip cur.placementEpoch k ∉ s.log)
    (hspare : ∀ t, .spare cur.placementEpoch t k ∉ s.log) :
    ∀ t ∈ owners P cur k, Confirmed s.log cur.placementEpoch t k := by
  intro t ht
  obtain ⟨hself, htold⟩ := (settledInv_run h hok hrun).told hsw hcur hdrop
  have hne : t ≠ P.self := fun heq => hself (heq ▸ ht)
  rcases htold.resolve_left hskip t ht hne with hf | hc | hs
  · exact hf.elim
  · exact hc
  · exact absurd hs.1 (hspare t)

namespace Moved

/-- Owners by position, the last nodes first. -/
def params : Params ℕ where
  toParams := Pins.Old.params
  self := 1
  ownerIDs nodes replicas _ := (nodes.map Prod.fst).reverse.take replicas
  delta := 1

def first : View where
  incarnation := 1
  epoch := 1
  version := 1
  placementEpoch := 1
  replicas := 1
  minReplicas := 1
  voters := [⟨1, 1⟩]
  nodes := [⟨1, 1, [], [1], "", 1, true⟩, ⟨2, 1, [], [2], "", 1, true⟩]

/-- A third node joins. -/
def proposed : List Change :=
  [.join { id := 4, tokenID := [4], weight := 1 } 0, .ack 1 2, .ack 2 2, .freeze 2 0]

/-- The view after these changes. -/
def after (cs : List Change) : View :=
  cs.foldl (fun v c => (casView c v).toOption.getD v) first

/-- The pack is offered to its owner. -/
def audited : List (Action ℕ) :=
  [.node (.put [7] 1), .roll, .look, .enter true, .audit 1 true, .offer 2 ⟨some [], none⟩, .finish]

/-- The pass of the transition. -/
def entered : List (Action ℕ) :=
  proposed.map .change ++
    [.adopt (after proposed), .onEpoch (after proposed) {}, .look, .enter true]

/-- The transition goes on without this node, and commits. -/
def without : List Change := [.done 2 2, .refreeze false 0, .done 2 2, .commit 2 1 0]

/-- A sweep under the new view. -/
def swept (u : View) : List (Action ℕ) :=
  [.node Pins.Old.interval, .node .barrier, .node (.check 1), .node (.record 1 0),
    .node (.ack 1 1 3), .node (.confirm 1 1 3), .node .abort, .node Pins.Old.interval,
    .node .barrier, .node (.check 2), .node (.record 2 720000000001), .node (.ack 2 2 3),
    .node (.confirm 2 2 3), .node .snapshot, .roots 2 u, .node (.handleMark 0 fun _ => none),
    .node .markDone] ++
  (Pins.Old.polled Pins.Old.second ++ Pins.Old.begun Pins.Old.second 0).map .node ++ [.place 0]

/-- The visit begins before the commit and ends after it. -/
def raced : List (Action ℕ) :=
  audited ++ entered ++ without.map .change ++
    [.adopt (after (proposed ++ without)), .visit true, .finish] ++
    swept (after (proposed ++ without))

/-- The pack is offered before the commit. -/
def passed : List (Action ℕ) :=
  audited ++ entered ++ [.visit true, .offer 4 ⟨some [7], some [7]⟩, .finish] ++
    without.map .change ++ [.adopt (after (proposed ++ without))] ++
    swept (after (proposed ++ without))

end Moved

/-- The event is an owner spared. -/
def Event.spares : Event κ → Bool
  | .spare _ _ _ => true
  | _ => false

/-- The new owner answers the pass's offer, and the sweep after the commit drops the key. -/
theorem dead_confirmed_passed :
    ∃ s ∈ Machine.run (step Moved.params) (start Moved.first 1) Moved.passed,
      ∃ si ∈ s.node.compacts 0, ∃ cur ∈ s.cur 0, DropsUnowned Moved.params s si cur 7 ∧
        owners Moved.params cur 7 = [4] ∧
        ∀ t ∈ owners Moved.params cur 7, Confirmed s.log cur.placementEpoch t 7 := by
  have hok : Machine.Along (step Moved.params) (fun s a => oneView s a) (start Moved.first 1)
      Moved.passed := by decide +kernel
  have hend : ∃ s ∈ Machine.run (step Moved.params) (start Moved.first 1) Moved.passed,
      ∃ si ∈ s.node.compacts 0, ∃ cur ∈ s.cur 0,
        DropsUnowned Moved.params s si cur 7 ∧ owners Moved.params cur 7 = [4] ∧
        .skip cur.placementEpoch 7 ∉ s.log ∧ ∀ e ∈ s.log, e.spares = false := by
    decide +kernel
  obtain ⟨s, hrun, si, hsi, cur, hcur, hdrop, hown, hskip, hspare⟩ := hend
  exact ⟨s, hrun, si, hsi, cur, hcur, hdrop, hown,
    dead_confirmed (by decide) hok hrun (Pins.sweeps_of_compacts hsi) hcur hdrop hskip
      fun t ht => by cases hspare _ ht⟩

/-- The pass reads the frozen view, the commit is adopted, and the pass reads the placement: it
offers nothing, stamps the pack as settled, and the key goes without the new owner being asked. -/
theorem settled_unasked : Sound Moved.first ∧
    ∃ s ∈ Machine.run (step Moved.params) (start Moved.first 1) Moved.raced,
      ∃ si ∈ s.node.compacts 0, ∃ cur ∈ s.cur 0,
        DropsUnowned Moved.params s si cur 7 ∧ 4 ∈ owners Moved.params cur 7 ∧
        ¬ Confirmed s.log cur.placementEpoch 4 7 := by
  have hend : ∃ s ∈ Machine.run (step Moved.params) (start Moved.first 1) Moved.raced,
      ∃ si ∈ s.node.compacts 0, ∃ cur ∈ s.cur 0,
        DropsUnowned Moved.params s si cur 7 ∧ 4 ∈ owners Moved.params cur 7 ∧
        .confirm 4 7 ∉ s.log := by
    decide +kernel
  obtain ⟨s, hrun, si, hsi, cur, hcur, hdrop, hown, hno⟩ := hend
  exact ⟨by decide, s, hrun, si, hsi, cur, hcur, hdrop, hown, fun h => hno h.mem⟩

/-- The views a run went through carry one layout for a placement id. -/
theorem layout_by_id (h : Sound v) (hrun : Machine.run (step P) (start v now) acts = some s)
    {u u' : View} (hu : u ∈ s.past) (hu' : u' ∈ s.past) {l l' : Layout} (hl : l ∈ layouts u)
    (hl' : l' ∈ layouts u') (hid : l.id = l'.id) : l = l' := by
  have hi : Inv s := Machine.invariant (fun _ _ _ hi hs => inv_step hi (step_stepped hs)) acts
    (inv_start h now) hrun
  exact hi.past.unique u hu u' hu' l hl l' hl' hid

theorem layout_by_id_moved :
    ∃ l ∈ layouts (Moved.after Moved.proposed), l.id = 2 ∧
      l = current (Moved.after (Moved.proposed ++ Moved.without)) := by
  obtain ⟨s, hrun, hu, hu', l, hl, h2, hid⟩ :
      ∃ s ∈ Machine.run (step Moved.params) (start Moved.first 1) Moved.passed,
        Moved.after Moved.proposed ∈ s.past ∧
        Moved.after (Moved.proposed ++ Moved.without) ∈ s.past ∧
        ∃ l ∈ layouts (Moved.after Moved.proposed), l.id = 2 ∧
          l.id = (current (Moved.after (Moved.proposed ++ Moved.without))).id := by
    decide +kernel
  exact ⟨l, hl, h2, layout_by_id (by decide) hrun hu hu' hl (current_mem _) hid⟩

end Dstore.Cluster.Reconcile

import Dstore.Complete

/-!
# What a finished walk has verified

A walk that finds nothing missing has negotiated every key under its root except those below the
keys it took from the cache. What the cache certifies about those is as old as the earliest walk
they were negotiated in, and was negotiated under that walk's view; the code looks at neither.
-/

namespace Dstore.Complete

variable {κ : Type} [LinearOrder κ] {P : Params κ} {s s' : State κ} {a : Action κ} {w : Walk κ}
  {held held' : List (NodeID × κ × ℤ)} {version i : ℕ} {t t' now now' : ℤ} {j k : κ}
  {cache : KV κ Entry} {rest : List κ} {results : Answers κ}

/-- The node was heard to hold the key, at `t` or later. -/
def heldSince (held : List (NodeID × κ × ℤ)) (t : ℤ) (k : κ) (o : NodeID) : Bool :=
  held.any fun e => e.1 = o ∧ e.2.1 = k ∧ t ≤ e.2.2

/-- Enough owners of `k` have it since `t`, under `nodes` and under `pending.nodes`. -/
def Covered (pl : Placement κ) (held : List (NodeID × κ × ℤ)) (t : ℤ) (k : κ) : Prop :=
  min pl.minReplicas (pl.owners k).length ≤ (pl.owners k).countP (heldSince held t k) ∧
    min pl.minReplicas (pl.pendingOwners k).length ≤
      (pl.pendingOwners k).countP (heldSince held t k)

instance (pl : Placement κ) (t : ℤ) (k : κ) : Decidable (Covered pl held t k) :=
  inferInstanceAs (Decidable (_ ∧ _))

/-- All below the key has been held by enough owners since `t`. -/
def Certified (P : Params κ) (version : ℕ) (held : List (NodeID × κ × ℤ)) (t : ℤ) (k : κ) : Prop :=
  ∀ j, P.Reaches k j → Covered (P.placement version) held t j

theorem heldSince_mono (hh : held ⊆ held') (ht : t' ≤ t) {o : NodeID} (h : heldSince held t k o) :
    heldSince held' t' k o := by
  simp only [heldSince, List.any_eq_true, decide_eq_true_eq] at h ⊢
  obtain ⟨e, he, ho, hk, hte⟩ := h
  exact ⟨e, hh he, ho, hk, ht.trans hte⟩

theorem Covered.mono {pl : Placement κ} (h : Covered pl held t k) (hh : held ⊆ held')
    (ht : t' ≤ t) : Covered pl held' t' k :=
  ⟨h.1.trans (List.countP_mono_left fun _ _ => heldSince_mono hh ht),
    h.2.trans (List.countP_mono_left fun _ _ => heldSince_mono hh ht)⟩

theorem Certified.mono (h : Certified P version held t k) (hh : held ⊆ held') (ht : t' ≤ t) :
    Certified P version held' t' k :=
  fun j hj => (h j hj).mono hh ht

theorem Certified.of_reaches (h : Certified P version held t k) (hj : P.Reaches k j) :
    Certified P version held t j :=
  fun m hm => h m (hj.trans hm)

theorem covered_of_not_short {pl : Placement κ} (h : short pl results k = false)
    (hr : ∀ o ∈ pl.writeSet k, has results k o → heldSince held t k o) :
    Covered pl held t k := by
  simp only [short, Bool.decide_or, Bool.or_eq_false_iff, decide_eq_false_iff_not, not_lt] at h
  refine ⟨h.1.trans (List.countP_mono_left fun o ho => hr o ?_),
    h.2.trans (List.countP_mono_left fun o ho => hr o ?_)⟩
  · exact List.mem_append_left _ ho
  · by_cases hm : o ∈ pl.owners k
    · exact List.mem_append_left _ hm
    · exact List.mem_append_right _ (List.mem_filter.2 ⟨ho, by simpa using hm⟩)

/-- What a walk knows of the keys it has seen. -/
structure Walk.Inv (P : Params κ) (held : List (NodeID × κ × ℤ)) (now : ℤ) (w : Walk κ) :
    Prop where
  began : w.start ≤ now
  since_le : w.since ≤ w.start
  fresh : w.cutoff P ≤ w.since
  root : w.root ∈ w.seen ∨ w.root ∈ w.frontier
  expanded : ∀ k ∈ w.seen, P.leaf k ∨ Certified P w.version held w.since k ∨ k ∈ w.interior ∨
    k ∈ w.unread ∨ ∃ kids, P.childKeys k = some kids ∧
      ∀ c ∈ kids, c ∈ w.seen ∨ c ∈ w.frontier ∨ c ∈ w.next
  checked : ∀ k ∈ w.seen, k ∈ w.toCheck ∨ 0 < w.shortfall ∨
    Covered (w.placement P) held w.start k
  stuck : ∀ k ∈ w.unread, k ∈ w.toCheck ∨ 0 < w.shortfall
  inner : ∀ k ∈ w.interior, k ∈ w.toCheck
  paused : ∀ results, w.phase = .asking results → w.interior = []
  told : ∀ results, w.phase = .asking results → ∀ k ∈ w.toCheck,
    ∀ o ∈ (w.placement P).writeSet k, has results k o → heldSince held w.start k o
  short : w.missing = [] → w.shortfall = 0
  ended : w.phase = .done → w.frontier = [] ∧ w.interior = [] ∧ w.next = [] ∧ w.toCheck = []

namespace Walk

theorem Inv.mono (h : w.Inv P held now) (hh : held ⊆ held') (hn : now ≤ now') :
    w.Inv P held' now' where
  began := h.began.trans hn
  since_le := h.since_le
  fresh := h.fresh
  root := h.root
  expanded k hk := (h.expanded k hk).imp_right (.imp_left fun hc => hc.mono hh le_rfl)
  checked k hk := (h.checked k hk).imp_right (.imp_right fun hc => hc.mono hh le_rfl)
  stuck := h.stuck
  inner := h.inner
  paused := h.paused
  told r hr k hk o ho hp := heldSince_mono hh le_rfl (h.told r hr k hk o ho hp)
  short := h.short
  ended := h.ended

theorem inv_begin (root : κ) (version : ℕ) (now : ℤ) :
    ({ root := root, version := version, start := now } : Walk κ).Inv P held now := by
  refine ⟨le_rfl, le_rfl, ?_, .inr (by simp), ?_, ?_, ?_, ?_, ?_, ?_, fun _ => rfl, ?_⟩
  · change now - (P.putTTL / 2 : ℕ) ≤ now
    omega
  all_goals simp

theorem Inv.phase (h : w.Inv P held now) {ph : Phase κ} (ha : ∀ r, ph ≠ .asking r)
    (hd : ph ≠ .done) : ({ w with phase := ph } : Walk κ).Inv P held now where
  began := h.began
  since_le := h.since_le
  fresh := h.fresh
  root := h.root
  expanded := h.expanded
  checked := h.checked
  stuck := h.stuck
  inner := h.inner
  paused r hr := absurd hr (ha r)
  told r hr := absurd hr (ha r)
  short := h.short
  ended hp := absurd hp hd

theorem completeSince_eq_some {e : Entry} (h : w.completeSince P cache k = some e) :
    cache.get k = some e := (Option.filter_eq_some_iff.1 h).1

/-- Visiting a key keeps the invariant, if what the cache has certifies what it says and the entry
met is fresh. -/
theorem Inv.visit (h : w.Inv P held now) (hph : w.phase = .walking) (hf : w.frontier = k :: rest)
    (hcache : ∀ k e, cache.get k = some e → Certified P e.version held e.since k)
    (hok : k ∉ w.seen → P.leaf k = false → ∀ e, w.completeSince P cache k = some e →
      w.cutoff P ≤ e.since ∧ e.version = w.version) :
    (w.visit P cache k rest).Inv P held now := by
  unfold Walk.visit
  have hfront : ∀ c, c ∈ w.frontier → c = k ∨ c ∈ rest := by simp [hf]
  have hnot : ∀ r, w.phase ≠ .asking r := by simp [hph]
  have hdone : w.phase ≠ .done := by simp [hph]
  by_cases hk : k ∈ w.seen
  · rw [if_pos hk]
    have hmove : ∀ c, c ∈ w.frontier → c ∈ w.seen ∨ c ∈ rest := fun c hc =>
      (hfront c hc).imp_left fun (hck : c = k) => hck ▸ hk
    refine { h with root := ?_, expanded := fun j hj => ?_, ended := fun hp => absurd hp hdone }
    · exact h.root.elim .inl (hmove _)
    · refine (h.expanded j hj).imp_right (.imp_right (.imp_right (.imp_right ?_)))
      rintro ⟨kids, hkids, hall⟩
      refine ⟨kids, hkids, fun c hc => ?_⟩
      rcases hall c hc with hc | hc | hc
      · exact .inl hc
      · exact (hmove c hc).imp_right .inl
      · exact .inr (.inr hc)
  · rw [if_neg hk]
    -- the key leaves the frontier for `seen` and `toCheck`; what becomes of it is a hypothesis
    have main : ∀ (since : ℤ) (interior : List κ), since ≤ w.since → w.cutoff P ≤ since →
        (∀ j ∈ w.interior, j ∈ interior) → (∀ j ∈ interior, j = k ∨ j ∈ w.interior) →
        (P.leaf k ∨ Certified P w.version held since k ∨ k ∈ interior) →
        ({ w with frontier := rest, seen := k :: w.seen, toCheck := w.toCheck ++ [k],
                  since := since, interior := interior } : Walk κ).Inv P held now := by
      intro since interior hsince hcut hsub hint hnew
      have hmove : ∀ c, c ∈ w.frontier → c ∈ k :: w.seen ∨ c ∈ rest := fun c hc =>
        (hfront c hc).imp_left fun (hck : c = k) => by simp [hck]
      refine ⟨h.began, hsince.trans h.since_le, hcut, ?_, fun j hj => ?_, fun j hj => ?_,
        fun j hj => ?_, fun j hj => ?_, fun r hr => absurd hr (hnot r),
        fun r hr => absurd hr (hnot r), h.short,
        fun hp => absurd hp hdone⟩
      · exact h.root.elim (fun hr => .inl (List.mem_cons_of_mem _ hr)) (hmove _)
      · rcases List.mem_cons.1 hj with rfl | hj
        · rcases hnew with hn | hn | hn
          · exact .inl hn
          · exact .inr (.inl hn)
          · exact .inr (.inr (.inl hn))
        · rcases h.expanded j hj with hl | hc | hi | hu | ⟨kids, hkids, hall⟩
          · exact .inl hl
          · exact .inr (.inl (hc.mono (List.Subset.refl _) hsince))
          · exact .inr (.inr (.inl (hsub j hi)))
          · exact .inr (.inr (.inr (.inl hu)))
          · refine .inr (.inr (.inr (.inr ⟨kids, hkids, fun c hc => ?_⟩)))
            rcases hall c hc with hc | hc | hc
            · exact .inl (List.mem_cons_of_mem _ hc)
            · exact (hmove c hc).imp_right .inl
            · exact .inr (.inr hc)
      · rcases List.mem_cons.1 hj with rfl | hj
        · exact .inl (by simp)
        · exact (h.checked j hj).imp_left (List.mem_append_left _)
      · exact (h.stuck j hj).imp_left (List.mem_append_left _)
      · rcases hint j hj with rfl | hj
        · simp
        · exact List.mem_append_left _ (h.inner j hj)
    by_cases hl : P.leaf k
    · simp only [hl, if_true]
      exact main w.since w.interior le_rfl h.fresh (fun _ => id) (fun _ => .inr) (.inl hl)
    · simp only [hl, Bool.false_eq_true, if_false]
      split
      · rename_i e he
        obtain ⟨hfresh, hver⟩ := hok hk (by simpa using hl) e he
        have hcert := hver ▸ hcache k e (completeSince_eq_some he)
        exact main _ w.interior (min_le_left _ _) (le_min h.fresh hfresh) (fun _ => id)
          (fun _ => .inr) (.inr (.inl (hcert.mono (List.Subset.refl _) (min_le_right _ _))))
      · exact main w.since _ le_rfl h.fresh (fun _ => List.mem_append_left _)
          (fun j hj => by simpa [or_comm] using hj) (.inr (.inr (by simp)))

/-- A node's children are read, or it counts as unread. -/
theorem Inv.fetch (h : w.Inv P held now) (hph : w.phase = .walking)
    (hi : w.interior = k :: rest) (r : Fetched) : (w.fetch P k rest r).Inv P held now := by
  have hfail : ({ w with phase := .failed } : Walk κ).Inv P held now := h.phase (by simp) (by simp)
  have hin : ∀ j ∈ w.interior, j = k ∨ j ∈ rest := by simp [hi]
  have hrest : ∀ j ∈ rest, j ∈ w.toCheck := fun j hj => h.inner j (by simp [hi, hj])
  have hdone : w.phase ≠ .done := by simp [hph]
  have hnot : ∀ r, w.phase ≠ .asking r := by simp [hph]
  cases r with
  | refused => exact hfail
  | unread =>
    refine { h with
      expanded := fun j hj => ?_
      stuck := fun j hj => ?_
      inner := hrest
      paused := fun r hr => absurd hr (hnot r)
      told := fun r hr => absurd hr (hnot r)
      ended := fun hp => absurd hp hdone }
    · refine (h.expanded j hj).imp_right (.imp_right ?_)
      rintro (hj | hj | hj)
      · exact (hin j hj).elim (fun hjk => .inr (.inl (List.mem_cons.2 (.inl hjk)))) .inl
      · exact .inr (.inl (List.mem_cons_of_mem _ hj))
      · exact .inr (.inr hj)
    · rcases List.mem_cons.1 hj with rfl | hj
      · exact .inl (h.inner j (by simp [hi]))
      · exact h.stuck j hj
  | data =>
    unfold Walk.fetch
    dsimp only
    split
    · rename_i kids hkids
      refine { h with
        expanded := fun j hj => ?_
        inner := hrest
        paused := fun r hr => absurd hr (hnot r)
        told := fun r hr => absurd hr (hnot r)
        ended := fun hp => absurd hp hdone }
      refine (h.expanded j hj).imp_right (.imp_right ?_)
      rintro (hj | hj | ⟨kids', hkids', hall⟩)
      · rcases hin j hj with rfl | hj
        · exact .inr (.inr ⟨kids, hkids, fun c hc => .inr (.inr (List.mem_append_right _ hc))⟩)
        · exact .inl hj
      · exact .inr (.inl hj)
      · exact .inr (.inr ⟨kids', hkids', fun c hc =>
          (hall c hc).imp_right (.imp_right (List.mem_append_left _))⟩)
    · exact hfail

theorem Inv.ask (h : w.Inv P held now) (hi : w.interior = []) :
    ({ w with phase := .asking [] } : Walk κ).Inv P held now :=
  { h with
    paused := fun _ _ => hi
    told := fun r hr k _ o _ hp => by
      cases hr
      simp [has] at hp
    ended := fun hp => by simp at hp }

theorem Inv.advance (h : w.Inv P held now) (hph : w.phase = .walking) (hf : w.frontier = []) :
    ({ w with frontier := w.next, next := [] } : Walk κ).Inv P held now :=
  { h with
    root := .inl (by simpa [hf] using h.root)
    expanded := fun j hj => by
      refine (h.expanded j hj).imp_right (.imp_right (.imp_right (.imp_right ?_)))
      rintro ⟨kids, hkids, hall⟩
      exact ⟨kids, hkids, fun c hc => by simpa [hf] using hall c hc⟩
    ended := fun hp => by simp [hph] at hp }

/-- A negotiation settles every key it asked for, or leaves the walk short. -/
theorem Inv.conclude (h : w.Inv P held now) (hph : w.phase = .asking results) :
    (w.conclude P results).Inv P held now := by
  unfold Walk.conclude
  dsimp only
  split_ifs with hbad
  · exact h.phase (by simp) (by simp)
  · have hcase : ∀ k ∈ w.toCheck, 0 < w.shortfall +
        (w.toCheck.filter (Complete.short (w.placement P) results)).length ∨
        k ∉ w.unread ∧ Covered (w.placement P) held w.start k := by
      intro k hk
      rcases hs : Complete.short (w.placement P) results k with _ | _
      · have hnot : k ∉ w.toCheck.filter (Complete.short (w.placement P) results) := by simp [hs]
        have hcov := covered_of_not_short hs (h.told results hph k hk)
        push Not at hbad
        exact .inr ⟨fun hu => hnot (hbad k hk hu), hcov⟩
      · have := List.length_pos_of_mem (List.mem_filter.2 ⟨hk, hs⟩)
        exact .inl (by omega)
    refine { h with
      checked := fun k hk => ?_
      stuck := fun k hk => ?_
      inner := by simp [h.paused results hph]
      paused := fun r hr => by simp at hr
      told := fun r hr => by simp at hr
      short := fun hm => ?_
      ended := fun hp => by simp at hp }
    · rcases h.checked k hk with hk | hk | hk
      · exact (hcase k hk).elim (fun hp => .inr (.inl hp)) fun hc => .inr (.inr hc.2)
      · exact .inr (.inl (Nat.lt_add_right _ hk))
      · exact .inr (.inr hk)
    · rcases h.stuck k hk with hc | hc
      · exact .inr ((hcase k hc).elim id fun hn => absurd hk hn.1)
      · exact .inr (Nat.lt_add_right _ hc)
    · simp only [List.take_eq_nil_iff, List.append_eq_nil_iff] at hm
      rcases hm with hm | ⟨hm, hn⟩
      · simp [maxMissing] at hm
      · simp [h.short hm, hn]

/-- A walk with nothing left to do has certified all it has seen. -/
theorem Inv.certified (h : w.Inv P held now) (hf : w.frontier = []) (hi : w.interior = [])
    (hn : w.next = []) (hc : w.toCheck = []) (hs : w.shortfall = 0) (hk : k ∈ w.seen) :
    Certified P w.version held w.since k := by
  -- a key found from `k` on was seen, or is below one the cache certified
  have hreach : ∀ j, P.Reaches k j → j ∈ w.seen ∨ Certified P w.version held w.since j := by
    intro j hj
    induction hj with
    | refl => exact .inl hk
    | @tail m c _ hmc ih =>
      obtain ⟨kids, hkids, hmem⟩ := hmc
      have hstep : P.Reaches m c := .single ⟨kids, hkids, hmem⟩
      rcases ih with hm | hm
      · rcases h.expanded m hm with hl | hcert | hin | hu | ⟨kids', hkids', hall⟩
        · rw [P.leaf_childKeys m hl, Option.some.injEq] at hkids
          simp [← hkids] at hmem
        · exact .inr (hcert.of_reaches hstep)
        · simp [hi] at hin
        · simpa [hc, hs] using h.stuck m hu
        · cases hkids.symm.trans hkids'
          simpa [hf, hn] using Or.inl (hall c hmem)
      · exact .inr (hm.of_reaches hstep)
  intro j hj
  rcases hreach j hj with hj | hj
  · have hcov : Covered (w.placement P) held w.start j := by
      simpa [hc, hs] using h.checked j hj
    exact hcov.mono (List.Subset.refl _) h.since_le
  · exact hj j .refl

end Walk

theorem get_remember {e : Entry} (h : (w.remember P now cache).get k = some e) :
    k ∈ w.seen ∧ e = ⟨now, w.since, w.version⟩ ∨ cache.get k = some e := by
  unfold Walk.remember at h
  dsimp only at h
  split_ifs at h
  · simp at h
  · rw [KV.get_foldl_set (fun k => k), List.map_id'] at h
    split_ifs at h with hk
    · exact .inl ⟨(List.mem_filter.1 hk).1, (Option.some.inj h).symm⟩
    · exact .inr h

/-- Walks are sound, and what they cache is certified. -/
structure Inv (P : Params κ) (s : State κ) : Prop where
  walks : ∀ i w, s.walks i = some w → w.Inv P s.held s.now
  cache : ∀ k e, s.completeCache.get k = some e → Certified P e.version s.held e.since k

theorem Inv.put (h : Inv P s) (hw : w.Inv P s.held s.now) : Inv P (s.put i w) := by
  refine ⟨fun j w' hj => ?_, h.cache⟩
  unfold State.put at hj
  by_cases hji : j = i
  · subst hji
    simp only [Function.update_self, Option.some.injEq] at hj
    exact hj ▸ hw
  · exact h.walks j w' (by simpa [Function.update_of_ne hji] using hj)

theorem Inv.mono (h : Inv P s) (hn : s.now ≤ now) (hh : s.held ⊆ held) :
    Inv P { s with now := now, held := held } :=
  ⟨fun i w hw => (h.walks i w hw).mono hh hn, fun k e hk => (h.cache k e hk).mono hh le_rfl⟩

theorem Inv.turn (h : Inv P s) (hw : w.Inv P s.held s.now) (hph : w.phase = .walking)
    (hf : w.frontier = []) (hi : w.interior = []) : Inv P (s.turn P i w) := by
  unfold State.turn
  split_ifs with hmax hnext hcheck hshort
  · exact h.put (hw.ask hi)
  · exact h.put (hw.advance hph hf)
  · exact h.put (hw.ask hi)
  all_goals
    push Not at hnext hcheck
    have hdone : ({ w with phase := .done } : Walk κ).Inv P s.held s.now :=
      { hw with
        paused := fun _ _ => hi
        told := fun r hr => by simp at hr
        ended := fun _ => ⟨hf, hi, hnext, hcheck⟩ }
  · refine ⟨(h.put hdone).walks, fun k e hk => ?_⟩
    rcases get_remember hk with ⟨hseen, rfl⟩ | hk
    · exact hw.certified hf hi hnext hcheck hshort hseen
    · exact h.cache k e hk
  · exact ⟨(h.put hdone).walks, h.cache⟩

/-- An owner answers for the keys it was asked for. -/
theorem Inv.found {found : List κ} {o : NodeID} {r : Option (List κ)} (h : Inv P s)
    (hw : w.Inv P s.held s.now) (hph : w.phase = .asking results)
    (hfound : ∀ lacking ∈ r, ∀ k ∈ w.toCheck, o ∈ (w.placement P).writeSet k → k ∉ lacking →
      k ∈ found) :
    Inv P { s.put i { w with phase := .asking ((o, r) :: results) } with
      held := found.map (fun k => (o, k, s.now)) ++ s.held } := by
  have hsub : s.held ⊆ found.map (fun k => (o, k, s.now)) ++ s.held := List.subset_append_right _ _
  refine (h.mono le_rfl hsub).put (i := i) (w := { w with phase := .asking ((o, r) :: results) }) ?_
  refine { hw.mono hsub le_rfl with
    paused := fun _ _ => hw.paused results hph
    told := fun r' hr' k hk o' ho' hhas => ?_
    ended := fun hp => by simp at hp }
  cases hr'
  by_cases hoo : o' = o
  · subst hoo
    rcases r with _ | lacking
    · simp [has] at hhas
    · simp only [has, List.lookup_cons_self, decide_eq_true_eq] at hhas
      have hkf : k ∈ found := hfound lacking rfl k hk ho' hhas
      simp only [heldSince, List.any_eq_true, decide_eq_true_eq]
      have hmem := List.mem_map_of_mem (f := fun k => (o', k, s.now)) hkf
      exact ⟨_, List.mem_append_left _ hmem, rfl, rfl, hw.began⟩
  · refine heldSince_mono hsub le_rfl (hw.told results hph k hk o' ho' ?_)
    have hne : (o' == o) = false := by simpa using hoo
    simpa [has, List.lookup_cons, hne] using hhas

theorem Inv.answer (h : Inv P s) (hw : w.Inv P s.held s.now) (hph : w.phase = .asking results)
    (o : NodeID) (r : Option (List κ)) : Inv P (s.answer P i w results o r) := by
  refine h.found hw hph ?_
  rintro lacking ⟨⟩ k hk ho hnot
  exact List.mem_filter.2 ⟨List.mem_filter.2 ⟨hk, decide_eq_true ho⟩, decide_eq_true hnot⟩

/-- A step keeps the invariant, if what it takes from the cache is still certified. -/
theorem inv_step (h : Inv P s) (hok : certified P s a) (hs : step P s a = some s') : Inv P s' := by
  cases a with
  | tick d =>
    cases hs
    have hsub : s.held ⊆ s.held := List.Subset.refl _
    exact h.mono (by omega) hsub
  | adopt v =>
    cases hs
    exact ⟨h.walks, h.cache⟩
  | begin root =>
    cases hs
    have hput := h.put (i := s.count) (Walk.inv_begin root s.version s.now)
    exact ⟨hput.walks, hput.cache⟩
  | visit i =>
    simp only [step] at hs
    split at hs <;> try cases hs
    rename_i w hw
    split at hs <;> cases hs
    rename_i k rest hph hf
    refine h.put ((h.walks i w hw).visit hph hf h.cache fun hk hl e he => ?_)
    simpa [certified, hw, hf, hk, hl, he] using hok
  | fetch i r =>
    simp only [step] at hs
    split at hs <;> try cases hs
    rename_i w hw
    split at hs <;> cases hs
    rename_i k rest hph hf hi
    exact h.put ((h.walks i w hw).fetch hph hi r)
  | turn i =>
    simp only [step] at hs
    split at hs <;> try cases hs
    rename_i w hw
    split at hs <;> cases hs
    rename_i hph hf hi
    exact h.turn (h.walks i w hw) hph hf hi
  | answer i o r =>
    simp only [step] at hs
    split at hs <;> try cases hs
    rename_i w hw
    split at hs <;> try cases hs
    rename_i results hph
    split_ifs at hs
    cases hs
    exact h.answer (h.walks i w hw) hph o r
  | conclude i =>
    simp only [step] at hs
    split at hs <;> try cases hs
    rename_i w hw
    split at hs <;> try cases hs
    rename_i results hph
    split_ifs at hs
    cases hs
    exact h.put ((h.walks i w hw).conclude hph)

theorem inv_run {as : List (Action κ)}
    (hok : Machine.Along (step P) (fun s a => certified P s a) {} as)
    (hs : Machine.run (step P) {} as = some s) : Inv P s := by
  have hstart : Inv P ({} : State κ) := ⟨fun _ _ h => (nomatch h), fun _ _ h => (nomatch h)⟩
  exact Machine.invariant_along (P := Inv P) (fun _ _ _ h hok hs => inv_step h hok hs) as hstart
    hok hs

/-- In a run in which every walk stops only at entries that certify enough, a walk that returns
nothing missing has found every key under its root at enough owners, by negotiations no earlier
than half of the put's lifetime before its start. -/
theorem walkComplete_covered {as : List (Action κ)}
    (hok : Machine.Along (step P) (fun s a => certified P s a) {} as)
    (hs : Machine.run (step P) {} as = some s) (hw : s.walks i = some w) (hd : w.phase = .done)
    (hm : w.missing = []) (hk : P.Reaches w.root k) :
    Covered (w.placement P) s.held (w.cutoff P) k := by
  have h := (inv_run hok hs).walks i w hw
  obtain ⟨hf, hi, hn, hc⟩ := h.ended hd
  have hroot : w.root ∈ w.seen := by simpa [hf] using h.root
  exact (h.certified hf hi hn hc (h.short hm) hroot k hk).mono (List.Subset.refl _) h.fresh

namespace Chained

/-- A root with one child, which has one leaf. -/
def params : Params ℕ where
  childKeys := fun k => if k = 0 then some [1] else if k = 1 then some [2] else some []
  leaf := fun k => 2 ≤ k
  leaf_childKeys := by
    intro k hk
    have hk : 2 ≤ k := by simpa using hk
    rw [if_neg (by omega), if_neg (by omega)]
  placement := fun _ => { owners := fun _ => [7], rankIDs := fun _ => [7], minReplicas := 1 }
  putTTL := 10

/-- A walk that visits all three. -/
def full (i : ℕ) : List (Action ℕ) :=
  [.begin 0, .visit i, .fetch i .data, .turn i, .visit i, .fetch i .data, .turn i, .visit i,
    .turn i, .answer i 7 (some []), .conclude i, .turn i]

/-- A walk that finds its root cached. -/
def pruned (i : ℕ) : List (Action ℕ) :=
  [.begin 0, .visit i, .turn i, .answer i 7 (some []), .conclude i, .turn i]

theorem reaches : params.Reaches 0 2 :=
  .tail (b := 1) (.single ⟨[1], rfl, by simp⟩) ⟨[2], rfl, by simp⟩

end Chained

/-- The second of two walks, four apart with a lifetime of ten, may rest on the first. -/
theorem walkComplete_covered_chained :
    Machine.Along (step Chained.params) (fun s a => certified Chained.params s a) {}
        (Chained.full 0 ++ .tick 4 :: Chained.pruned 1) ∧
      ∃ s ∈ Machine.run (step Chained.params) {} (Chained.full 0 ++ .tick 4 :: Chained.pruned 1),
        ∃ w ∈ s.walks 1, w.start = 4 ∧ w.phase = .done ∧ w.missing = [] ∧
          Covered (w.placement Chained.params) s.held (w.cutoff Chained.params) 2 := by
  have hok : Machine.Along (step Chained.params) (fun s a => certified Chained.params s a) {}
      (Chained.full 0 ++ .tick 4 :: Chained.pruned 1) := by decide +kernel
  have hrun : ∃ s ∈ Machine.run (step Chained.params) {}
      (Chained.full 0 ++ .tick 4 :: Chained.pruned 1),
        ∃ w ∈ s.walks 1, w.root = 0 ∧ w.start = 4 ∧ w.phase = .done ∧ w.missing = [] := by
    decide +kernel
  obtain ⟨s, hs, w, hw, hroot, hstart, hd, hm⟩ := hrun
  refine ⟨hok, s, hs, w, hw, hstart, hd, hm, ?_⟩
  exact walkComplete_covered hok hs hw hd hm (hroot ▸ Chained.reaches)

/-- The third, eight after the first, stops at the entry the second has rewritten: it returns
nothing missing, and the leaf was last negotiated by the first. -/
theorem walkComplete_stale : Chained.params.Reaches 0 2 ∧
    ∃ s ∈ Machine.run (step Chained.params) {}
        (Chained.full 0 ++ .tick 4 :: Chained.pruned 1 ++ .tick 4 :: Chained.pruned 2),
      ∃ w ∈ s.walks 2, w.root = 0 ∧ w.phase = .done ∧ w.missing = [] ∧
        ¬ Covered (w.placement Chained.params) s.held (w.cutoff Chained.params) 2 :=
  ⟨Chained.reaches, by decide +kernel⟩

end Dstore.Complete

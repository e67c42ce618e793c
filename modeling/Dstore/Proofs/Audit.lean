import Dstore.Audit

/-!
# Who waits for whom in the audit

Every call visits the first of the packs that need it: one that is not to be tried again yet holds
up all behind it. A pack is eventually visited if and only if the packs before it all get through
within one audit interval (`visited_iff`).
-/

namespace Dstore.Audit

variable {κ : Type} {P : Params κ} {now now' : ℤ} {stamps : ℕ → Option PackStamp}

section first

variable {a b c : Cand}

theorem Cand.less_iff : a.less b ↔ a.prio < b.prio ∨ a.prio = b.prio ∧ a.id < b.id := by
  unfold Cand.less
  split_ifs with h
  · simp only [decide_eq_true_eq]
    omega
  · simp only [decide_eq_true_eq]
    omega

theorem Cand.eq_of_not_less (h : ¬ a.less b) (h' : ¬ b.less a) : a = b := by
  rw [Cand.less_iff] at h h'
  obtain ⟨i, p⟩ := a
  obtain ⟨j, q⟩ := b
  simp only [Cand.mk.injEq] at *
  omega

theorem mem_cands : c ∈ cands P now stamps ↔
    c.id ∈ P.packs ∧ prio P now (stamps c.id) = some c.prio := by
  simp only [cands, List.mem_filterMap, Option.map_eq_some_iff]
  constructor
  · rintro ⟨id, hid, p, hp, rfl⟩
    exact ⟨hid, hp⟩
  · rintro ⟨hid, hp⟩
    exact ⟨c.id, hid, c.prio, hp, rfl⟩

theorem not_less_of_head {l : List Cand}
    (h : (l.mergeSort fun a b => !b.less a).head? = some c) : c ∈ l ∧ ∀ d ∈ l, ¬ d.less c := by
  have hsort : (l.mergeSort fun a b => !b.less a).Pairwise fun a b => !b.less a := by
    refine List.pairwise_mergeSort (fun a b c hab hbc => ?_) (fun a b => ?_) l
    · simp only [Bool.not_eq_eq_eq_not, Bool.not_true, ← Bool.not_eq_true, Cand.less_iff] at *
      omega
    · simp only [Bool.or_eq_true, Bool.not_eq_eq_eq_not, Bool.not_true, ← Bool.not_eq_true,
        Cand.less_iff]
      omega
  obtain ⟨rest, hrest⟩ := List.head?_eq_some_iff.1 h
  have hmem : ∀ d, d ∈ l ↔ d ∈ c :: rest := fun d => by rw [← hrest, List.mem_mergeSort]
  refine ⟨(hmem c).2 List.mem_cons_self, fun d hd => ?_⟩
  rw [hrest, List.pairwise_cons] at hsort
  rcases List.mem_cons.1 ((hmem d).1 hd) with rfl | hd
  · rw [Cand.less_iff]
    omega
  · simpa using hsort.1 d hd

theorem head_eq {l : List Cand} (hc : c ∈ l) (h : ∀ d ∈ l, ¬ d.less c) :
    (l.mergeSort fun a b => !b.less a).head? = some c := by
  rcases hh : (l.mergeSort fun a b => !b.less a).head? with _ | d
  · rw [List.head?_eq_none_iff] at hh
    have hmem : c ∈ l.mergeSort fun a b => !b.less a := List.mem_mergeSort.2 hc
    simp [hh] at hmem
  · obtain ⟨hd, hfirst⟩ := not_less_of_head hh
    rw [Cand.eq_of_not_less (h d hd) (hfirst c hc)]

end first

section prio

variable {st : Option PackStamp} {a : ℕ}

theorem prio_mono (h : prio P now st = some a) (hle : now ≤ now') : prio P now' st = some a := by
  cases st with
  | none => exact h
  | some st =>
    simp only [prio] at h ⊢
    split_ifs at h ⊢ <;> first | exact h | omega

theorem prio_due (h : prio P now st = none) (h' : prio P now' st = some a) : a = 3 := by
  cases st with
  | none => simp [prio] at h
  | some st =>
    simp only [prio] at h h'
    split_ifs at h h'
    simpa using h'.symm

theorem prio_le_of_backsOff (h : prio P now st = some a) (hb : backsOff P now st) : a ≤ 2 := by
  cases st with
  | none =>
    cases h
    omega
  | some st =>
    simp only [prio] at h
    simp only [backsOff, Bool.not_eq_eq_eq_not, Bool.not_true, decide_eq_true_eq] at hb
    split_ifs at h with h1 h2 h3 <;> cases h <;> simp_all

end prio

section visit

variable {v : Visit κ} {id q : ℕ} {keys : List κ}

theorem reconcilePack_of_ne (h : q ≠ id) : reconcilePack P v id stamps q = stamps q := by
  unfold reconcilePack
  cases v.index with
  | none => rfl
  | some keys => exact Function.update_of_ne h _ _

theorem reconcilePack_none (h : v.index = none) : reconcilePack P v id stamps = stamps := by
  simp only [reconcilePack, h]

theorem reconcilePack_self (h : v.index = some keys) :
    ∃ verified, reconcilePack P v id stamps id =
      some ⟨P.incarnation, P.placementEpoch, replicated P v keys, v.done, verified⟩ := by
  simp only [reconcilePack, h]
  exact ⟨_, Function.update_self _ _ _⟩

end visit

namespace Schedule

variable {S : Schedule κ} {i j k m p q : ℕ}

/-- A pack is visited when it needs it, comes first and is not backed off. -/
theorem visits_iff : S.Visits P i p ↔ S.Needs P i p ∧ (∀ q, ¬ S.Precedes P i q p) ∧
    ¬ backsOff P (S.call i).now (S.stamps P i p) := by
  unfold Visits backgroundStep
  constructor
  · intro h
    split at h
    · simp at h
    · rename_i c hc
      split_ifs at h with hb
      cases h
      obtain ⟨hmem, hfirst⟩ := not_less_of_head hc
      obtain ⟨hid, hp⟩ := mem_cands.1 hmem
      refine ⟨⟨hid, by simp [prioAt, hp]⟩, ?_, hb⟩
      rintro q ⟨hq, a, ha, b, hb', hlt⟩
      obtain rfl : b = c.prio := Option.some.inj (hb'.symm.trans hp)
      exact hfirst ⟨q, a⟩ (mem_cands.2 ⟨hq, ha⟩) hlt
  · rintro ⟨⟨hid, hneed⟩, hfirst, hb⟩
    obtain ⟨a, ha⟩ := Option.isSome_iff_exists.1 hneed
    rw [head_eq (c := ⟨p, a⟩) (mem_cands.2 ⟨hid, ha⟩)]
    · simp [hb]
    · intro d hd hlt
      obtain ⟨hdid, hdp⟩ := mem_cands.1 hd
      exact hfirst d.id ⟨hdid, d.prio, hdp, a, ha, hlt⟩

theorem stamps_of_not_visits (h : ¬ S.Visits P i p) : S.stamps P (i + 1) p = S.stamps P i p := by
  unfold Visits at h
  rcases hv : backgroundStep P (S.call i).now (S.stamps P i) with _ | id
  · simp only [stamps, hv]
  · simp only [stamps, hv]
    exact reconcilePack_of_ne fun heq => h (heq ▸ hv)

theorem stamps_of_visits (h : S.Visits P i p) :
    S.stamps P (i + 1) = reconcilePack P (S.call i).visit p (S.stamps P i) := by
  unfold Visits at h
  simp only [stamps, h]

theorem stamps_of_succeeds (h : S.Visits P i p) (hs : S.Succeeds P i) :
    ∃ verified, S.stamps P (i + 1) p =
      some ⟨P.incarnation, P.placementEpoch, true, (S.call i).visit.done, verified⟩ := by
  obtain ⟨keys, hkeys, hrep⟩ := hs
  rw [stamps_of_visits h, ← hrep]
  exact reconcilePack_self hkeys

theorem now_mono (S : Schedule κ) (h : i ≤ j) : (S.call i).now ≤ (S.call j).now :=
  monotone_nat_of_le_succ (f := fun i => (S.call i).now)
    (fun i => (S.within i).trans (S.next i)) h

/-- A pack that was audited needs nothing for an interval. -/
theorem prioAt_of_succeeds (h : S.Visits P m q) (hs : S.Succeeds P m) (hmk : m < k)
    (hk : (S.call k).now - (S.call m).visit.done ≤ P.auditInterval) : S.prioAt P k q = none := by
  obtain ⟨verified, hst⟩ := stamps_of_succeeds h hs
  have hnone : ∀ {i}, i ≤ k → S.stamps P i q =
      some ⟨P.incarnation, P.placementEpoch, true, (S.call m).visit.done, verified⟩ →
      S.prioAt P i q = none := by
    intro i hi hst
    have := S.now_mono hi
    simp only [prioAt, hst, prio]
    rw [if_neg (by simp), if_neg (by simp), if_neg (by omega)]
  -- it needs no visit, so it gets none, so its stamp stays
  have hstay : ∀ n, m + 1 + n ≤ k → S.stamps P (m + 1 + n) q =
      some ⟨P.incarnation, P.placementEpoch, true, (S.call m).visit.done, verified⟩ := by
    intro n
    induction n with
    | zero => exact fun _ => hst
    | succ n ih =>
      intro hn
      have hprev := ih (by omega)
      rw [show m + 1 + (n + 1) = m + 1 + n + 1 by omega, stamps_of_not_visits, hprev]
      intro hv
      have hneed := (visits_iff.1 hv).1.2
      simp [hnone (by omega) hprev] at hneed
  have hk' := hstay (k - (m + 1)) (by omega)
  rw [show m + 1 + (k - (m + 1)) = k by omega] at hk'
  exact hnone le_rfl hk'

theorem not_precedes_self : ¬ S.Precedes P i p p := by
  rintro ⟨-, a, ha, b, hb, hlt⟩
  obtain rfl : a = b := Option.some.inj (ha.symm.trans hb)
  simp only [Cand.less_iff] at hlt
  omega

theorem stamps_of_unvisited (h : ∀ j, i ≤ j → ¬ S.Visits P j p) (hij : i ≤ j) :
    S.stamps P j p = S.stamps P i p := by
  induction j, hij using Nat.le_induction with
  | base => rfl
  | succ j hij ih => rw [stamps_of_not_visits (h j hij), ih]

theorem needs_of_unvisited (h : ∀ j, i ≤ j → ¬ S.Visits P j p) (hn : S.Needs P i p)
    (hij : i ≤ j) : S.Needs P j p := by
  obtain ⟨a, ha⟩ := Option.isSome_iff_exists.1 hn.2
  refine ⟨hn.1, Option.isSome_iff_exists.2 ⟨a, ?_⟩⟩
  unfold prioAt at ha ⊢
  rw [stamps_of_unvisited h hij]
  exact prio_mono ha (S.now_mono hij)

theorem not_visits_of_first (hn : S.Needs P i p) (hfirst : ∀ q, ¬ S.Precedes P i q p)
    (hp : ¬ S.Visits P i p) (q : ℕ) : ¬ S.Visits P i q := by
  intro hq
  obtain ⟨hqn, hqfirst, -⟩ := visits_iff.1 hq
  obtain ⟨a, ha⟩ := Option.isSome_iff_exists.1 hn.2
  obtain ⟨b, hb⟩ := Option.isSome_iff_exists.1 hqn.2
  have heq : (⟨q, b⟩ : Cand) = ⟨p, a⟩ := Cand.eq_of_not_less
    (fun hlt => hfirst q ⟨hqn.1, b, hb, a, ha, hlt⟩)
    (fun hlt => hqfirst p ⟨hn.1, a, ha, b, hb, hlt⟩)
  obtain rfl : q = p := congrArg Cand.id heq
  exact hp hq

/-- While the first pack is not to be tried again yet, nothing is visited, and the packs that come
due meanwhile come after it. -/
theorem first_stays (hn : S.Needs P i p) (hfirst : ∀ q, ¬ S.Precedes P i q p)
    (h : ∀ j, i ≤ j → ¬ S.Visits P j p) (hij : i ≤ j) (q : ℕ) : ¬ S.Precedes P j q p := by
  induction j, hij using Nat.le_induction generalizing q with
  | base => exact hfirst q
  | succ j hij ih =>
    have hnj := needs_of_unvisited h hn hij
    have hnone := not_visits_of_first hnj ih (h j hij)
    have hst : ∀ q, S.stamps P (j + 1) q = S.stamps P j q := fun q =>
      stamps_of_not_visits (hnone q)
    have hle := S.now_mono (Nat.le_succ j)
    obtain ⟨a, ha⟩ := Option.isSome_iff_exists.1 hnj.2
    have hback : a ≤ 2 := by
      refine prio_le_of_backsOff ha ?_
      by_contra hb
      exact h j hij (visits_iff.2 ⟨hnj, ih, hb⟩)
    rintro ⟨hq, b, hb, a', ha', hlt⟩
    simp only [prioAt, hst, Option.mem_def] at hb ha'
    rw [prio_mono ha hle, Option.some.injEq] at ha'
    subst ha'
    rcases hbj : prio P (S.call j).now (S.stamps P j q) with _ | b'
    · have := prio_due hbj hb
      simp only [Cand.less_iff] at hlt
      omega
    · rw [prio_mono hbj hle, Option.some.injEq] at hb
      exact ih q ⟨hq, b', hbj, a, ha, hb ▸ hlt⟩

theorem visited_of_first (hn : S.Needs P i p) (hfirst : ∀ q, ¬ S.Precedes P i q p) :
    ∃ j, i ≤ j ∧ S.Visits P j p := by
  by_contra hno
  have h : ∀ j, i ≤ j → ¬ S.Visits P j p := fun j hij hv => hno ⟨j, hij, hv⟩
  have hback : ∀ j, i ≤ j → backsOff P (S.call j).now (S.stamps P i p) := by
    intro j hij
    by_contra hb
    rw [← stamps_of_unvisited h hij] at hb
    exact h j hij (visits_iff.2 ⟨needs_of_unvisited h hn hij, first_stays hn hfirst h hij, hb⟩)
  rcases hst : S.stamps P i p with _ | st
  · simpa [hst, backsOff] using hback i le_rfl
  · obtain ⟨k, hk⟩ := S.unbounded (st.checked + P.firstAudit)
    have hb := hback (max i k) (le_max_left _ _)
    have := S.now_mono (le_max_right i k)
    simp only [hst, backsOff, decide_eq_true_eq] at hb
    omega

theorem exists_visits (hn : S.Needs P m p)
    (hb : ∀ q ∈ P.packs, ¬ backsOff P (S.call m).now (S.stamps P m q)) : ∃ q, S.Visits P m q := by
  obtain ⟨a, ha⟩ := Option.isSome_iff_exists.1 hn.2
  have hp : (⟨p, a⟩ : Cand) ∈ cands P (S.call m).now (S.stamps P m) := mem_cands.2 ⟨hn.1, ha⟩
  rcases hh : ((cands P (S.call m).now (S.stamps P m)).mergeSort fun a b => !b.less a).head? with
    _ | c
  · rw [List.head?_eq_none_iff] at hh
    exact absurd (hh ▸ List.mem_mergeSort.2 hp) (List.not_mem_nil)
  · have hc := mem_cands.1 (not_less_of_head hh).1
    exact ⟨c.id, by simp [Visits, backgroundStep, hh, hb c.id hc.1]⟩

/-- Calls that all make a visit that succeeds, within an audit interval, visit no pack twice. -/
theorem visited_of_calls (hn : S.Needs P j p)
    (hall : ∀ m, j ≤ m → m < j + P.packs.toFinset.card → (∃ q, S.Visits P m q) ∧
      S.Succeeds P m ∧ (S.call m).now - (S.call j).now ≤ P.auditInterval) :
    ∃ m, j ≤ m ∧ m < j + P.packs.toFinset.card ∧ S.Visits P m p := by
  classical
  by_contra hno
  have hvisit : ∀ m ∈ Finset.Ico j (j + P.packs.toFinset.card),
      ∃ q ∈ P.packs.toFinset.erase p, S.Visits P m q := by
    intro m hm
    obtain ⟨hjm, hmk⟩ := Finset.mem_Ico.1 hm
    obtain ⟨q, hq⟩ := (hall m hjm hmk).1
    refine ⟨q, Finset.mem_erase.2 ⟨?_, List.mem_toFinset.2 (visits_iff.1 hq).1.1⟩, hq⟩
    rintro rfl
    exact hno ⟨m, hjm, hmk, hq⟩
  choose! f hf hfv using hvisit
  have hcard : (P.packs.toFinset.erase p).card < (Finset.Ico j (j + P.packs.toFinset.card)).card := by
    have hp := List.mem_toFinset.2 hn.1
    have hpos := Finset.card_pos.2 ⟨p, hp⟩
    rw [Finset.card_erase_of_mem hp, Nat.card_Ico]
    omega
  -- two of the calls visit one pack, the second while it needs no visit
  obtain ⟨m, hm, m', hm', hne, heq⟩ := Finset.exists_ne_map_eq_of_card_lt_of_maps_to hcard hf
  wlog hlt : m < m' generalizing m m'
  · exact this m' hm' m hm hne.symm heq.symm (by omega)
  have hmj := Finset.mem_Ico.1 hm
  have hmj' := Finset.mem_Ico.1 hm'
  have hpace := (hall m' hmj'.1 hmj'.2).2.2
  have hstart := (S.now_mono hmj.1).trans (S.within m)
  have hnone := prioAt_of_succeeds (hfv m hm) (hall m hmj.1 hmj.2).2.1 hlt (by omega)
  have hneed := (visits_iff.1 (hfv m' hm')).1.2
  rw [← heq, hnone] at hneed
  simp at hneed

/-- From call `i` on, every visit reads its index and has its offers confirmed, and as many calls as
there are packs are made within an audit interval. -/
structure Healthy (P : Params κ) (S : Schedule κ) (i : ℕ) : Prop where
  succeeds : ∀ m, i ≤ m → S.Succeeds P m
  pace : ∀ m, i ≤ m →
    (S.call (m + P.packs.toFinset.card)).now - (S.call m).now ≤ P.auditInterval

theorem Healthy.stamps_cases (h : S.Healthy P i) (hij : i ≤ j) :
    S.stamps P j q = S.stamps P i q ∨ ∃ st, S.stamps P j q = some st ∧ st.replicated = true := by
  induction j, hij using Nat.le_induction with
  | base => exact .inl rfl
  | succ j hij ih =>
    by_cases hv : S.Visits P j q
    · obtain ⟨verified, hst⟩ := stamps_of_succeeds hv (h.succeeds j hij)
      exact .inr ⟨_, hst, rfl⟩
    · rwa [stamps_of_not_visits hv]

/-- In a healthy schedule no pack is held back for ever. -/
theorem Healthy.exists_not_backsOff (h : S.Healthy P i) : ∃ j, i ≤ j ∧ ∀ m, j ≤ m →
    ∀ q ∈ P.packs, ¬ backsOff P (S.call m).now (S.stamps P m q) := by
  obtain ⟨t, ht⟩ := (P.packs.toFinset.image fun q =>
    (S.stamps P i q).elim 0 (·.checked + P.firstAudit)).bddAbove
  obtain ⟨k, hk⟩ := S.unbounded t
  refine ⟨max i k, le_max_left _ _, fun m hm q hq hb => ?_⟩
  have hnow := hk.trans (S.now_mono ((le_max_right i k).trans hm))
  rcases h.stamps_cases ((le_max_left i k).trans hm) with hst | ⟨st, hst, hrep⟩
  · rw [hst] at hb
    rcases hi : S.stamps P i q with _ | st
    · simp [hi, backsOff] at hb
    · have hle := ht (Finset.mem_image.2 ⟨q, List.mem_toFinset.2 hq, rfl⟩)
      simp only [hi, Option.elim_some] at hle
      simp only [hi, backsOff, decide_eq_true_eq] at hb
      omega
  · simp [hst, backsOff, hrep] at hb

theorem Healthy.visited (h : S.Healthy P i) (hn : S.Needs P i p) : ∃ j, i ≤ j ∧ S.Visits P j p := by
  obtain ⟨j, hij, hb⟩ := h.exists_not_backsOff
  by_contra hno
  have hnot : ∀ j, i ≤ j → ¬ S.Visits P j p := fun j hij hv => hno ⟨j, hij, hv⟩
  obtain ⟨m, hjm, -, hv⟩ := visited_of_calls (needs_of_unvisited hnot hn hij) fun m hjm hmk =>
    ⟨exists_visits (needs_of_unvisited hnot hn (hij.trans hjm)) (hb m hjm),
      h.succeeds m (hij.trans hjm), by
        have hpace := h.pace j hij
        have hmono := S.now_mono hmk.le
        omega⟩
  exact hnot m (hij.trans hjm) hv

/-- A pack that needs a visit is eventually visited if and only if there is a stretch of calls, of
no more than an audit interval, in which every pack that comes before it is visited, its index read
and its offers confirmed. In particular it is where from some call on every index can be read and
every offer is confirmed. -/
theorem visited_iff (hn : S.Needs P i p) : ((∃ j, i ≤ j ∧ S.Visits P j p) ↔
    ∃ j k, i ≤ j ∧ j ≤ k ∧ (S.call k).now - (S.call j).now ≤ P.auditInterval ∧
      ∀ q, (∃ m, j ≤ m ∧ m ≤ k ∧ S.Precedes P m q p) →
        ∃ m, j ≤ m ∧ m < k ∧ S.Visits P m q ∧ S.Succeeds P m) ∧
    ((∃ k, i ≤ k ∧ S.Healthy P k) → ∃ j, i ≤ j ∧ S.Visits P j p) := by
  refine ⟨⟨?_, ?_⟩, ?_⟩
  · rintro ⟨j, hij, hv⟩
    refine ⟨j, j, hij, le_rfl, by have := P.auditInterval_nonneg; omega, ?_⟩
    rintro q ⟨m, hjm, hmj, hq⟩
    obtain rfl : m = j := by omega
    exact absurd hq ((visits_iff.1 hv).2.1 q)
  · rintro ⟨j, k, hij, hjk, hpace, hthrough⟩
    by_contra hno
    have h : ∀ j, i ≤ j → ¬ S.Visits P j p := fun j hij hv => hno ⟨j, hij, hv⟩
    have hik : i ≤ k := hij.trans hjk
    obtain ⟨j', hkj', hv⟩ := visited_of_first (needs_of_unvisited h hn hik) fun q hq => by
      obtain ⟨m, hjm, hmk, hv, hs⟩ := hthrough q ⟨k, hjk, le_rfl, hq⟩
      -- it has got through since the stretch began, so it is not due again
      have hstart := (S.now_mono hjm).trans (S.within m)
      obtain ⟨-, b, hb, -⟩ := hq
      rw [prioAt_of_succeeds hv hs hmk (by omega)] at hb
      simp at hb
    exact h j' (hik.trans hkj') hv
  · rintro ⟨k, hik, hk⟩
    by_contra hno
    obtain ⟨j, hkj, hv⟩ := hk.visited
      (needs_of_unvisited (fun j hij hv => hno ⟨j, hij, hv⟩) hn hik)
    exact hno ⟨j, hik.trans hkj, hv⟩

/-- Two packs, kept by this node and one more. -/
def twoPacks : Params ℕ where
  self := 0
  packs := [1, 2]
  incarnation := 1
  placementEpoch := 1
  writeSet _ := [0, 9]
  auditInterval := 100
  firstAudit := 5
  auditInterval_nonneg := by decide

/-- An audit every tick, all with the same answers. -/
def steady (init : ℕ → Option PackStamp) (index : Option (List ℕ))
    (failed : NodeID → List ℕ → List ℕ) : Schedule ℕ where
  init := init
  call i := ⟨200 + i, index, fun _ => false, failed, 200 + i, 200 + i, 200 + i⟩
  within _ := le_rfl
  next i := by simp
  unbounded t := ⟨t.toNat, by simp only; omega⟩

/-- Every owner has what it is asked for. -/
def healthy : Schedule ℕ := steady (fun _ => none) (some [7]) fun _ _ => []

theorem healthy_succeeds (m : ℕ) : healthy.Succeeds twoPacks m := by
  refine ⟨[7], rfl, ?_⟩
  simp [replicated, healthy, steady]

theorem healthy_visits_first : healthy.Visits twoPacks 0 1 := by
  refine visits_iff.2 ⟨⟨by decide, by decide⟩, ?_, by decide⟩
  rintro q ⟨hq, a, ha, b, hb, hlt⟩
  obtain rfl : a = 0 := (Option.some.inj ha).symm
  obtain rfl : b = 0 := (Option.some.inj hb).symm
  have : q = 1 ∨ q = 2 := by simpa [twoPacks] using hq
  simp only [Cand.less_iff] at hlt
  omega

theorem healthy_visits_second : healthy.Visits twoPacks 1 2 := by
  have hst : healthy.stamps twoPacks 1 2 = none := by
    refine (stamps_of_not_visits fun h => ?_).trans rfl
    exact absurd (Option.some.inj (h.symm.trans healthy_visits_first)) (by decide)
  refine visits_iff.2 ⟨⟨by decide, by simp [prioAt, hst, prio]⟩, fun q hq => ?_,
    by simp [hst, backsOff]⟩
  have hmem : q = 1 ∨ q = 2 := by simpa [twoPacks] using hq.1
  rcases hmem with rfl | rfl
  · obtain ⟨-, a, ha, -⟩ := hq
    rw [prioAt_of_succeeds healthy_visits_first (healthy_succeeds 0) Nat.zero_lt_one
      (by decide)] at ha
    cases ha
  · exact not_precedes_self hq

/-- Two packs that were never checked, in a healthy cluster. -/
theorem visited_iff_healthy :
    ∃ j, 0 ≤ j ∧ (steady (fun _ => none) (some [7]) fun _ _ => []).Visits twoPacks j 2 := by
  have hneeds : healthy.Needs twoPacks 0 2 := ⟨by decide, by decide⟩
  refine (visited_iff hneeds).1.2 ⟨0, 1, le_rfl, by decide, by decide, ?_⟩
  rintro q ⟨m, -, -, hq⟩
  have hmem : q = 1 ∨ q = 2 := by simpa [twoPacks] using hq.1
  rcases hmem with rfl | rfl
  · exact ⟨0, le_rfl, by decide, healthy_visits_first, healthy_succeeds 0⟩
  · exact absurd hq not_precedes_self

/-- A pack that needs a visit gets one in any stretch of as many calls as there are packs, of no
more than an audit interval, which all make a visit that succeeds. -/
theorem visited_in_stretch (hn : S.Needs P j p)
    (hall : ∀ m, j ≤ m → m < j + P.packs.toFinset.card → (∃ q, S.Visits P m q) ∧
      S.Succeeds P m ∧ (S.call m).now - (S.call j).now ≤ P.auditInterval) :
    ∃ m, j ≤ m ∧ m < j + P.packs.toFinset.card ∧ S.Visits P m p :=
  visited_of_calls hn hall

/-- Two packs and two calls: the second call finds the first pack settled. -/
theorem visited_in_stretch_healthy : ∃ m, 0 ≤ m ∧ m < 2 ∧ healthy.Visits twoPacks m 2 := by
  have hneeds : healthy.Needs twoPacks 0 2 := ⟨by decide, by decide⟩
  refine visited_in_stretch hneeds fun m _ hm => ?_
  have hm' : m = 0 ∨ m = 1 := by
    have : m < 2 := by simpa [twoPacks] using hm
    omega
  rcases hm' with rfl | rfl
  · exact ⟨⟨1, healthy_visits_first⟩, healthy_succeeds 0, by decide⟩
  · exact ⟨⟨2, healthy_visits_second⟩, healthy_succeeds 1, by decide⟩

/-- A pack that was not keeps its place. -/
theorem prioAt_of_fails {a : ℕ} (ha : S.prioAt P i q = some a) (hle : a ≤ 2)
    (hfail : S.Visits P i q → ¬ S.Succeeds P i) : ∃ b, S.prioAt P (i + 1) q = some b ∧ b ≤ 2 := by
  have hsame : S.stamps P (i + 1) q = S.stamps P i q → S.prioAt P (i + 1) q = some a := by
    intro hst
    unfold prioAt
    rw [hst]
    exact prio_mono ha (S.now_mono (Nat.le_succ i))
  by_cases hv : S.Visits P i q
  · rcases hindex : (S.call i).visit.index with _ | keys
    · exact ⟨a, hsame (by rw [stamps_of_visits hv, reconcilePack_none hindex]), hle⟩
    · obtain ⟨verified, hst⟩ : ∃ verified, reconcilePack P (S.call i).visit q (S.stamps P i) q =
          some ⟨P.incarnation, P.placementEpoch, replicated P (S.call i).visit keys,
            (S.call i).visit.done, verified⟩ := reconcilePack_self hindex
      have hrep : replicated P (S.call i).visit keys = false := by
        simpa using fun hrep => hfail hv ⟨keys, hindex, hrep⟩
      refine ⟨2, ?_, le_rfl⟩
      simp only [prioAt, stamps_of_visits hv, hst, prio, hrep]
      simp
  · exact ⟨a, hsame (stamps_of_not_visits hv), hle⟩

/-- A pack that needs a visit for more than its audit, and whose visits fail for ever, starves every
pack that needs one only for its audit. -/
theorem starves {a : ℕ} {st : PackStamp} (hq : q ∈ P.packs) (ha : S.prioAt P i q = some a)
    (hle : a ≤ 2) (hfail : ∀ j, i ≤ j → S.Visits P j q → ¬ S.Succeeds P j)
    (hp : S.stamps P i p = some st) (hinc : st.inc = P.incarnation)
    (hfor : st.forID = P.placementEpoch) (hrep : st.replicated) (hij : i ≤ j) :
    ¬ S.Visits P j p := by
  have hbehind : ∀ {j b}, S.stamps P j p = some st → S.prioAt P j q = some b → b ≤ 2 →
      ¬ S.Visits P j p := by
    intro j b hst hb hb2 hv
    obtain ⟨⟨-, hneed⟩, hfirst, -⟩ := visits_iff.1 hv
    obtain ⟨c, hc⟩ := Option.isSome_iff_exists.1 hneed
    have hc3 : c = 3 := by
      simp only [prioAt, hst, prio, hinc, hfor, hrep] at hc
      simp only [ne_eq, not_true_eq_false, or_self, if_false, Bool.not_true,
        Bool.false_eq_true] at hc
      split_ifs at hc
      exact (Option.some.inj hc).symm
    exact hfirst q ⟨hq, b, hb, c, hc, Cand.less_iff.2 (.inl (by simp only; omega))⟩
  have hinv : S.stamps P j p = some st ∧ ∃ b, S.prioAt P j q = some b ∧ b ≤ 2 := by
    induction j, hij using Nat.le_induction with
    | base => exact ⟨hp, a, ha, hle⟩
    | succ j hij ih =>
      obtain ⟨hst, b, hb, hb2⟩ := ih
      exact ⟨(stamps_of_not_visits (hbehind hst hb hb2)).trans hst,
        prioAt_of_fails hb hb2 (hfail j hij)⟩
  obtain ⟨hst, b, hb, hb2⟩ := hinv
  exact hbehind hst hb hb2

/-- The second pack has been audited, with the first as given. -/
def due (first : Option PackStamp) (id : ℕ) : Option PackStamp :=
  if id = 1 then first else some ⟨1, 1, true, 0, 0⟩

/-- An unchecked pack whose index cannot be read, and an unreplicated one whose target is dead, each
keep the pack behind them from ever being visited. -/
theorem audit_starves :
    ((steady (due none) none fun _ _ => []).Needs twoPacks 0 2 ∧
      ∀ j, ¬ (steady (due none) none fun _ _ => []).Visits twoPacks j 2) ∧
    ((steady (due (some ⟨1, 1, false, 0, 0⟩)) (some [7]) fun _ ks => ks).Needs twoPacks 0 2 ∧
      ∀ j, ¬ (steady (due (some ⟨1, 1, false, 0, 0⟩)) (some [7]) fun _ ks => ks).Visits twoPacks
        j 2) := by
  refine ⟨⟨⟨by decide, by decide⟩, fun j => ?_⟩, ⟨⟨by decide, by decide⟩, fun j => ?_⟩⟩
  · refine starves (i := 0) (q := 1) (a := 0) (by decide) rfl (by decide) ?_ rfl rfl rfl rfl
      (Nat.zero_le j)
    rintro m - - ⟨keys, hkeys, -⟩
    cases hkeys
  · refine starves (i := 0) (q := 1) (a := 2) (by decide) rfl (by decide) ?_ rfl rfl rfl rfl
      (Nat.zero_le j)
    rintro m - - ⟨keys, hkeys, hrep⟩
    cases hkeys
    simp [replicated, byTarget, steady, twoPacks] at hrep

end Schedule

end Dstore.Audit

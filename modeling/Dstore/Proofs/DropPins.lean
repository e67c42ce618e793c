import Dstore.Proofs.Pins
import Dstore.Proofs.Ranges

/-!
# What `dropPins` drops

`dropPins` collects the pins stamped below its bound that its scan comes to, and then deletes what
it collected, with no lock held in between. A new pin is lost if and only if its key was collected
for an old one (`dropPins_keeps_iff`).
-/

namespace Dstore.Pins

variable {κ : Type} [DecidableEq κ]

/-- The keys that a step stamps: what `put` and a gate find present. -/
def State.pinning (s : State κ) : Action κ → List κ
  | .put keys _ | .missing keys true => keys.filter fun k => s.has k && !s.isCorrupt k
  | _ => []

/-- A key has an old pin, in the range that is scanned: a pin whose eight bytes start with four
bytes `0xff` is behind it. -/
def State.Stale (P : Params κ) (s : State κ) (below : ℕ) (k : κ) : Prop :=
  ¬ [255, 255, 255, 255] <+: P.tailOf k ∧ ∃ stamp ∈ s.pins.get (P.pinKey k), stamp < below

instance (P : Params κ) (s : State κ) (below : ℕ) (k : κ) : Decidable (s.Stale P below k) :=
  decidable_of_iff (¬ [255, 255, 255, 255] <+: P.tailOf k ∧
    (s.pins.get (P.pinKey k)).any (· < below)) (by
      unfold State.Stale
      cases s.pins.get (P.pinKey k) <;> simp)

/-- The marks in memory, in their files and under a sweep are of counts that were reached. -/
structure Counted (s : State κ) : Prop where
  mark : ∀ m, s.mark = some m → m.count ≤ s.counter
  files : ∀ e m, s.files e = some m → m.count ≤ s.counter
  sweeps : ∀ i sw, s.sweeps i = some sw → ∀ si, sw.input = some si → si.count ≤ s.counter

variable {P : Params κ} {s s' : State κ} {a : Action κ}

omit [DecidableEq κ] in
theorem countOf_le {e c : ℕ} {r : BarrierRecord} (h : s.countOf e = some (c, r)) :
    c ≤ s.counter := by
  obtain ⟨i, -, hi⟩ := List.exists_of_findSome?_eq_some h
  split_ifs at hi
  split at hi
  · split_ifs at hi
    cases hi
    exact Nat.sub_le _ _
  · simp at hi

theorem handleMark_count_le {m : MarkMsg κ} {mark : Mark κ} {fails : ℕ → Option ℕ}
    (h : s.handleMark m fails = some mark) : mark.count ≤ s.counter := by
  unfold State.handleMark at h
  split at h
  · rename_i count r hc
    split_ifs at h
    cases h
    exact countOf_le hc
  · simp at h

/-- A sweep's count is not ahead of the counter. -/
theorem Counted.input_le (hc : Counted s) {e : ℕ} {fails : ℕ → Option ℕ} {si : SweepInput κ}
    (h : s.sweepInputFor e fails = some si) : si.count ≤ s.counter := by
  have hload : ∀ m, s.loadMark e fails = some m → m.count ≤ s.counter := by
    intro m hm
    obtain ⟨m', hm', rfl⟩ := Option.map_eq_some_iff.1 hm
    exact hc.files e m' hm'
  obtain ⟨m, hm, rfl⟩ := Option.map_eq_some_iff.1 h
  suffices m.count ≤ s.counter from this
  split at hm
  · rename_i m' hm'
    split_ifs at hm
    · cases hm
      exact hc.mark m hm'
    · exact hload m hm
  · exact hload m hm

theorem step_counter (h : step P s a = some s') : s.counter ≤ s'.counter := by
  cases a <;> simp only [step, State.put, Option.map_eq_some_iff] at h <;> grind

/-- Only gates and deletions touch the pins. -/
theorem step_pins (h : step P s a = some s') (ha : ∀ j, a ≠ .dropPins j) :
    s'.pins = s.pinKeys P (s.pinning a) := by
  cases a with
  | put keys pack =>
    simp only [step] at h
    split_ifs at h
    cases h
    rfl
  | missing keys pin => cases pin <;> cases h <;> rfl
  | dropPins j => exact absurd rfl (ha j)
  | _ =>
    simp only [State.pinning, State.pinKeys, List.foldl_nil]
    simp only [step, State.put, Option.map_eq_some_iff] at h
    grind

section deleting

variable {i : ℕ} {si : SweepInput κ} {batch : List Bytes}

theorem step_deleting (h : step P s a = some s') (ha : a ≠ .restart ∧ ∀ j, a ≠ .dropPins j)
    (hs : s.sweeps i = some (.deleting si batch)) :
    s'.sweeps i = some (.deleting si batch) := by
  cases step_moved h with
  | same heq => rw [heq, hs]
  | restart => exact absurd rfl ha.1
  | dropped hj => exact absurd rfl (ha.2 _)
  | _ hj heq =>
    rw [heq, Function.update_apply, if_neg, hs]
    rintro rfl
    simp [hs] at hj

theorem deleting_run {bs : List (Action κ)} (h : Machine.run (step P) s bs = some s')
    (hbs : ∀ a ∈ bs, a ≠ .restart ∧ ∀ j, a ≠ .dropPins j)
    (hs : s.sweeps i = some (.deleting si batch)) :
    s'.sweeps i = some (.deleting si batch) := by
  have hstep : ∀ u a u', u.sweeps i = some (.deleting si batch) →
      (a ≠ .restart ∧ ∀ j, a ≠ .dropPins j) → step P u a = some u' →
      u'.sweeps i = some (.deleting si batch) := fun _ _ _ hu ha h => step_deleting h ha hu
  exact Machine.invariant_along hstep bs hs (Machine.along_of_forall s hbs) h

end deleting

theorem step_files (h : step P s a = some s') {e : ℕ} {m : Mark κ} (hm : s'.files e = some m) :
    s.files e = some m ∨ s.mark = some m := by
  cases a with
  | persist =>
    obtain ⟨m', hm', rfl⟩ := Option.map_eq_some_iff.1 h
    simp only [Function.update_apply] at hm
    split_ifs at hm
    · exact .inr (hm'.trans hm)
    · exact .inl hm
  | _ =>
    simp only [step, State.put, Option.map_eq_some_iff] at h
    grind

theorem Counted.step (hc : Counted s) (h : step P s a = some s') : Counted s' := by
  have hle := step_counter h
  refine ⟨fun m hm => ?_, fun e m hm => ?_, fun i sw hsw si hsi => ?_⟩
  · rcases mark_step h hm with ⟨m', hm', heq, -⟩ | ⟨msg, fails, hmsg⟩
    · exact heq ▸ (hc.mark m' hm').trans hle
    · exact (handleMark_count_le hmsg).trans hle
  · rcases step_files h hm with hm' | hm'
    · exact (hc.files e m hm').trans hle
    · exact (hc.mark m hm').trans hle
  · rcases input_step h hsw hsi with ⟨sw', hsw', hsi'⟩ | ⟨e, fails, hsi'⟩
    · exact (hc.sweeps i sw' hsw' si hsi').trans hle
    · exact (hc.input_le hsi').trans hle

theorem counted_run {now : ℤ} {as : List (Action κ)}
    (h : Machine.run (step P) (start now) as = some s) : Counted s :=
  Machine.invariant (fun _ _ _ hc h => hc.step h) as
    ⟨by simp [start], by simp [start], by simp [start]⟩ h

omit [DecidableEq κ] in
/-- The scan finds the stale pins. -/
theorem mem_oldPins {below : ℕ} {k : κ} : P.pinKey k ∈ s.oldPins below ↔ s.Stale P below k := by
  have hscan : s.oldPins below = ((s.pins.scan Meta.mkPin (Meta.mkPin ++ [255, 255, 255, 255])).filter
      fun e => e.2 < below).map Prod.fst := by
    have h := Meta.walk_filter (fun stamp => decide (stamp < below))
      (s.pins.scan Meta.mkPin (Meta.mkPin ++ [255, 255, 255, 255])) []
    simpa only [State.oldPins, Meta.scan, decide_eq_true_eq, List.nil_append] using h
  have hrange : Meta.mkPin <+: P.pinKey k := List.prefix_append _ _
  have hbeyond : Meta.mkPin ++ [255, 255, 255, 255] <+: P.pinKey k ↔
      [255, 255, 255, 255] <+: P.tailOf k := List.prefix_append_right_inj _
  rw [hscan, List.mem_map]
  constructor
  · rintro ⟨⟨key, stamp⟩, he, hkey⟩
    obtain ⟨he, hlt⟩ := List.mem_filter.1 he
    obtain ⟨hget, hin⟩ := KV.mem_scan.1 he
    rw [hkey] at hget hin
    exact ⟨fun h => (mem_range.1 hin).2 (hbeyond.2 h), stamp, hget, of_decide_eq_true hlt⟩
  · rintro ⟨hin, stamp, hget, hlt⟩
    refine ⟨(P.pinKey k, stamp), List.mem_filter.2 ⟨KV.mem_scan.2 ⟨hget, ?_⟩, by simpa using hlt⟩, rfl⟩
    exact mem_range.2 ⟨hrange, fun h => hin (hbeyond.1 h)⟩

omit [DecidableEq κ] in
theorem pinned_iff {k : κ} {below : ℕ} :
    s.pinned P k below ↔ ∃ stamp, s.pins.get (P.pinKey k) = some stamp ∧ below ≤ stamp := by
  unfold State.pinned
  cases s.pins.get (P.pinKey k) <;> simp

omit [DecidableEq κ] in
theorem get_pinKeys (keys : List κ) (t : Bytes) : (s.pinKeys P keys).get t =
    if t ∈ keys.map P.pinKey then some s.counter else s.pins.get t := by
  rw [State.pinKeys, KV.get_foldl_set]
  split_ifs <;> rfl

section between

variable {bs : List (Action κ)} {si : SweepInput κ} {below : ℕ} {k : κ}

theorem pinned_step (hb : below ≤ s.counter) (h : step P s a = some s') (ha : ∀ j, a ≠ .dropPins j)
    (hp : s.pinned P k below) : s'.pinned P k below := by
  obtain ⟨stamp, hget, hle⟩ := pinned_iff.1 hp
  rw [pinned_iff, step_pins h ha, get_pinKeys]
  split_ifs
  · exact ⟨_, rfl, hb⟩
  · exact ⟨stamp, hget, hle⟩

theorem pinned_run (hb : below ≤ s.counter) (h : Machine.run (step P) s bs = some s')
    (hbs : ∀ a ∈ bs, ∀ j, a ≠ .dropPins j) (hp : s.pinned P k below) : s'.pinned P k below := by
  have hi : below ≤ s'.counter ∧ s'.pinned P k below :=
    Machine.invariant_along (P := fun u => below ≤ u.counter ∧ u.pinned P k below)
      (fun u a u' hu ha h => ⟨hu.1.trans (step_counter h), pinned_step hu.1 h ha hu.2⟩) bs
      ⟨hb, hp⟩ (Machine.along_of_forall s hbs) h
  exact hi.2

theorem pinned_of_pinning (hb : below ≤ s.counter) (h : step P s a = some s')
    (ha : ∀ j, a ≠ .dropPins j) (hk : k ∈ s.pinning a) : s'.pinned P k below := by
  rw [pinned_iff, step_pins h ha, get_pinKeys, if_pos (List.mem_map_of_mem hk)]
  exact ⟨_, rfl, hb⟩

/-- A stale pin that nothing pins again stays as it is until it is deleted. -/
theorem stale_run {s₀ : State κ} (h : Machine.run (step P) s bs = some s')
    (hbs : ∀ a ∈ bs, ∀ j, a ≠ .dropPins j) (hk : s₀.Stale P below k)
    (hok : Machine.Along (step P) (fun u a => ∀ j ∈ u.pinning a, ¬ s₀.Stale P below j) s bs) :
    s'.pins.get (P.pinKey k) = s.pins.get (P.pinKey k) := by
  induction bs generalizing s with
  | nil =>
    cases h
    rfl
  | cons a bs ih =>
    obtain ⟨m, hm, h⟩ := Machine.run_cons.1 h
    rw [ih h (fun b hb => hbs b (by simp [hb])) (hok.2 m hm), step_pins hm (hbs a (by simp)),
      get_pinKeys, if_neg]
    intro hmem
    obtain ⟨j, hj, heq⟩ := List.mem_map.1 hmem
    refine hok.1 j hj (mem_oldPins.1 ?_)
    rw [heq]
    exact mem_oldPins.2 hk

theorem pinned_dropPins {i : ℕ} {s₁ s₂ s₃ : State κ} (hsi : s.sweeps i = some (.dropping si))
    (hscan : step P s (.scanPins i) = some s₁)
    (hbs : ∀ a ∈ bs, a ≠ .restart ∧ ∀ j, a ≠ .dropPins j)
    (hr : Machine.run (step P) s₁ bs = some s₂) (hdrop : step P s₂ (.dropPins i) = some s₃) :
    s₃.pinned P k below ↔ ¬ s.Stale P (si.count - 1) k ∧ s₂.pinned P k below := by
  have hs₁ : s₁.sweeps i = some (.deleting si (s.oldPins (si.count - 1))) := by
    simp only [step, hsi, Option.some.injEq] at hscan
    rw [← hscan]
    exact Function.update_self ..
  have hs₂ := deleting_run hr hbs hs₁
  simp only [step, hs₂, Option.some.injEq] at hdrop
  rw [pinned_iff, ← hdrop, pinned_iff, ← mem_oldPins]
  simp only [KV.get_foldl_delete]
  split_ifs with hst <;> simp [hst]

/-- Every pin that a sweep of its bound honours, from the scan to the deletion, is there after it,
and the sweep's predicate honours it, if and only if no put and no gate in between stamps a key that
the scan found an old pin of. -/
theorem dropPins_keeps_iff {now : ℤ} {as : List (Action κ)} {i : ℕ} {s₁ s₂ s₃ : State κ}
    (hrun : Machine.run (step P) (start now) as = some s) (hsi : s.sweeps i = some (.dropping si))
    (hscan : step P s (.scanPins i) = some s₁)
    (hbs : ∀ a ∈ bs, a ≠ .restart ∧ ∀ j, a ≠ .dropPins j)
    (hr : Machine.run (step P) s₁ bs = some s₂) (hdrop : step P s₂ (.dropPins i) = some s₃) :
    (∀ pre post u k, bs = pre ++ post → Machine.run (step P) s₁ pre = some u →
      u.pinned P k (si.count - 1) → s₃.pinned P k (si.count - 1) ∧
        (s₃.isCorrupt k = false → ∀ cur settled, s₃.live P si cur settled k)) ↔
    Machine.Along (step P) (fun u a => ∀ k ∈ u.pinning a, ¬ s.Stale P (si.count - 1) k) s₁ bs := by
  have hd : ∀ a ∈ bs, ∀ j, a ≠ .dropPins j := fun a ha => (hbs a ha).2
  have hs₁ : s₁.pins = s.pins ∧ s₁.counter = s.counter := by
    simp only [step, hsi, Option.some.injEq] at hscan
    exact hscan ▸ ⟨rfl, rfl⟩
  -- the sweep's count was reached, so whatever is stamped from now on is stamped above the bound
  have hle : si.count - 1 ≤ s₁.counter := by
    have := (counted_run hrun).sweeps i _ hsi si rfl
    omega
  have hlater : ∀ {pre u}, (∀ a ∈ pre, ∀ j, a ≠ .dropPins j) → Machine.run (step P) s₁ pre = some u →
      si.count - 1 ≤ u.counter := fun hpre hu =>
    Machine.invariant (P := fun u => si.count - 1 ≤ u.counter)
      (fun _ _ _ hu h => hu.trans (step_counter h)) _ hle hu
  constructor
  · intro hkeep
    refine Machine.along_iff.2 fun pre a post u heq hu k hk hst => ?_
    have ha : a ∈ bs := by simp [heq]
    obtain ⟨m, hm, hpost⟩ := Machine.run_append.1 (heq ▸ hr)
    obtain rfl : m = u := by simpa [hu] using hm.symm
    obtain ⟨u', hu', hpost⟩ := Machine.run_cons.1 hpost
    have hp := pinned_of_pinning (hlater (fun b hb => hd b (by simp [heq, hb])) hu) hu' (hd a ha) hk
    have h₃ := (hkeep (pre ++ [a]) post u' k (by simp [heq])
      (Machine.run_append.2 ⟨m, hu, Machine.run_cons.2 ⟨u', hu', rfl⟩⟩) hp).1
    exact ((pinned_dropPins hsi hscan hbs hr hdrop).1 h₃).1 hst
  · intro hok pre post u k heq hu hp
    obtain ⟨m, hm, hpost⟩ := Machine.run_append.1 (heq ▸ hr)
    obtain rfl : m = u := by simpa [hu] using hm.symm
    have hpre : ∀ a ∈ pre, ∀ j, a ≠ .dropPins j := fun b hb => hd b (by simp [heq, hb])
    have hst : ¬ s.Stale P (si.count - 1) k := by
      intro hst
      obtain ⟨-, stamp, hget, hlt⟩ := id hst
      obtain ⟨stamp', hget', hge⟩ := pinned_iff.1 hp
      rw [stale_run hu hpre hst ((heq ▸ hok : _).append hu).1, hs₁.1, hget] at hget'
      cases hget'
      omega
    have h₂ := pinned_run (hlater hpre hu) hpost (fun b hb => hd b (by simp [heq, hb])) hp
    have h₃ := (pinned_dropPins hsi hscan hbs hr hdrop).2 ⟨hst, h₂⟩
    exact ⟨h₃, fun hc cur settled => live_of_pinned hc h₃⟩

end between

/-- The mark whose sweep is about to scan the pins. -/
def State.drops (s : State κ) (i : ℕ) : Option (SweepInput κ) :=
  match s.sweeps i with
  | some (.dropping si) => some si
  | _ => none

omit [DecidableEq κ] in
theorem sweeps_of_drops {i : ℕ} {si : SweepInput κ} (h : si ∈ s.drops i) :
    s.sweeps i = some (.dropping si) := by
  unfold State.drops at h
  split at h
  · rename_i si' hs
    cases h
    exact hs
  · simp at h

namespace Old

/-- A sweep up to its compaction. -/
def swept (before : List (Action ℕ)) : List (Action ℕ) :=
  before ++ polled second ++ begun second 0 ++ [compacted 0]

/-- The key is gated before the first barrier. -/
def gatedEarly : List (Action ℕ) :=
  stored ++ [.missing [7] true, .barrier, .check 1] ++ acked 1 1 0 ++
    [.abort, interval, .barrier, .check 2] ++ acked 2 2 720000000001 ++ marked 2 0

/-- Later the key is put once more. -/
def again : List (Action ℕ) := [interval, .missing [7] true, .put [7] 3]

end Old

/-- A pin of the first count, written anew before the deletion. -/
theorem dropPins_keeps_iff_again :
    ∃ s ∈ Machine.run (step Old.params) (start 1) (Old.swept Old.gated),
    ∃ s₁ ∈ step Old.params s (.scanPins 0), ∃ s₂ ∈ Machine.run (step Old.params) s₁ Old.again,
    ∃ s₃ ∈ step Old.params s₂ (.dropPins 0), ∃ si ∈ s.drops 0, si.count = 2 ∧
      s₂.pinned Old.params 7 1 ∧ s₃.pinned Old.params 7 1 ∧
      s₃.live Old.params si (fun _ => true) (fun _ => false) 7 := by
  have hend : ∃ s ∈ Machine.run (step Old.params) (start 1) (Old.swept Old.gated),
      ∃ s₁ ∈ step Old.params s (.scanPins 0), ∃ s₂ ∈ Machine.run (step Old.params) s₁ Old.again,
      ∃ s₃ ∈ step Old.params s₂ (.dropPins 0), ∃ si ∈ s.drops 0, si.count = 2 ∧
        s₂.pinned Old.params 7 1 ∧ s₃.isCorrupt 7 = false ∧
        Machine.Along (step Old.params) (fun u a => ∀ k ∈ u.pinning a, ¬ s.Stale Old.params 1 k) s₁
          Old.again := by
    decide +kernel
  obtain ⟨s, hrun, s₁, hscan, s₂, hr, s₃, hdrop, si, hsi, hcount, hp, hc, hok⟩ := hend
  have hone : si.count - 1 = 1 := by rw [hcount]
  have hkeep := (dropPins_keeps_iff hrun (sweeps_of_drops hsi) hscan
    (by simp [Old.again, Old.interval]) hr hdrop).2 (by rw [hone]; exact hok) Old.again [] s₂ 7
    (by simp) hr (by rw [hone]; exact hp)
  rw [hone] at hkeep
  exact ⟨s, hrun, s₁, hscan, s₂, hr, s₃, hdrop, si, hsi, hcount, hp, hkeep.1, hkeep.2 hc _ _⟩

/-- A key with a pin from before the first barrier is pinned anew between the scan and the deletion,
and has no pin after it. -/
theorem new_pin_dropped :
    ∃ s ∈ Machine.run (step Old.params) (start 1) (Old.swept Old.gatedEarly),
    ∃ s₁ ∈ step Old.params s (.scanPins 0), ∃ s₂ ∈ Machine.run (step Old.params) s₁ Old.again,
    ∃ s₃ ∈ step Old.params s₂ (.dropPins 0), ∃ si ∈ s.drops 0, si.count = 2 ∧
      s₂.pinned Old.params 7 2 ∧ s₃.pinned Old.params 7 0 = false ∧ s₃.isCorrupt 7 = false ∧
      s₃.live Old.params si (fun _ => true) (fun _ => false) 7 = false := by
  decide +kernel

end Dstore.Pins

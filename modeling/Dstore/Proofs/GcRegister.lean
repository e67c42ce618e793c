import Dstore.GcRegister

/-!
# The epochs of the gc register

Within one epoch the phase only moves from `barrier` to `mark`, from there to `sweep`, between
`sweep` and `idle`, or from `barrier` and `mark` to `aborted`, where it stays. The epoch moves only
to the next number, with a barrier.
-/

namespace Dstore.Gc

variable {x y z : GCState} {w : Write}

/-- What a write makes of the epoch, the phase and the acked set. -/
inductive Moves (x y : GCState) : Prop
  | stay (he : y.epoch = x.epoch) (hp : y.phase = x.phase) (ha : y.acked = x.acked)
      (hl : y.lastOK = x.lastOK)
  | ack (he : y.epoch = x.epoch) (hx : x.phase = .barrier) (hy : y.phase = .barrier)
  | start (he : y.epoch = x.epoch + 1) (hy : y.phase = .barrier)
  | mark (he : y.epoch = x.epoch) (hx : x.phase = .barrier) (hy : y.phase = .mark)
  | sweep (he : y.epoch = x.epoch) (hx : x.phase = .mark) (hy : y.phase = .sweep)
      (ha : y.acked = x.acked)
  | complete (he : y.epoch = x.epoch) (hx : x.phase = .sweep) (hy : y.phase = .idle)
      (ha : y.acked = x.acked) (hl : y.lastOK = y.epoch)
  | abort (he : y.epoch = x.epoch) (hx : x.phase ≠ .idle ∧ x.phase ≠ .sweep)
      (hy : y.phase = .aborted) (ha : y.acked = x.acked)
  | resweep (he : y.epoch = x.lastOK) (h0 : x.lastOK ≠ 0) (hx : x.phase = .idle)
      (hy : y.phase = .sweep) (ha : y.acked = x.acked)

/-- A write is one of the moves. -/
theorem moves_apply (h : w.apply x = .ok y) : Moves x y := by
  cases w with
  | startBarrier nonce tolerate interval now =>
    simp only [Write.apply, Gc.startBarrier] at h
    split_ifs at h
    cases h
    exact .start rfl rfl
  | ack node epoch =>
    simp only [Write.apply, Gc.ack] at h
    split_ifs at h with hc
    · cases h
      exact .ack rfl (by simp_all) (by simp_all)
    · cases h
      exact .ack rfl (by simp_all) (by simp_all)
  | freeze epoch placement now =>
    simp only [Write.apply, Gc.freeze] at h
    split_ifs at h with hc
    cases h
    push Not at hc
    exact .mark rfl hc.2 rfl
  | enterSweep epoch marked now =>
    simp only [Write.apply, Gc.enterSweep] at h
    split_ifs at h with hc
    cases h
    push Not at hc
    exact .sweep rfl hc.2 rfl rfl
  | reportNoMark node epoch =>
    simp only [Write.apply, Gc.reportNoMark] at h
    split_ifs at h
    cases h
    exact .stay rfl rfl rfl rfl
  | reportSweep stat epoch =>
    simp only [Write.apply, Gc.reportSweep] at h
    split_ifs at h
    cases h
    exact .stay rfl rfl rfl rfl
  | complete epoch =>
    simp only [Write.apply, Gc.complete] at h
    split_ifs at h with hc
    cases h
    push Not at hc
    exact .complete rfl hc.2 rfl rfl rfl
  | releaseWave epoch =>
    simp only [Write.apply, Gc.releaseWave] at h
    split_ifs at h
    cases h
    exact .stay rfl rfl rfl rfl
  | abort epoch reason =>
    simp only [Write.apply, Gc.abort] at h
    split_ifs at h with hc
    cases h
    push Not at hc
    exact .abort rfl hc.2 rfl rfl
  | resweep garbage now =>
    simp only [Write.apply, Gc.resweep] at h
    split_ifs at h with hc
    cases h
    push Not at hc
    exact .resweep rfl hc.2 hc.1 rfl rfl
  | missing | hold | restore =>
    cases h
    exact .stay rfl rfl rfl rfl

/-- An idle register has finished its epoch. -/
def Sane (x : GCState) : Prop := x.phase = .idle → x.lastOK = x.epoch

theorem Moves.sane (hx : Sane x) (h : Moves x y) : Sane y := by
  intro hy
  cases h with
  | stay he hp _ hl => rw [hl, he, hx (hp ▸ hy)]
  | complete _ _ _ _ hl => exact hl
  | _ => simp_all

/-- What later values of the register keep of an earlier one. -/
structure Later (x y : GCState) : Prop where
  epoch : x.epoch ≤ y.epoch
  acked : x.epoch = y.epoch → x.phase ≠ .barrier → y.phase ≠ .barrier ∧ y.acked = x.acked
  aborted : x.epoch = y.epoch → x.phase = .aborted → y.phase = .aborted
  swept : x.epoch = y.epoch → x.phase = .sweep ∨ x.phase = .idle →
    y.phase = .sweep ∨ y.phase = .idle

theorem Later.refl (x : GCState) : Later x x :=
  ⟨le_rfl, fun _ h => ⟨h, rfl⟩, fun _ h => h, fun _ h => h⟩

theorem Later.trans (h : Later x y) (h' : Later y z) : Later x z := by
  have hle := h.epoch
  have hle' := h'.epoch
  refine ⟨hle.trans hle', fun he hp => ?_, fun he hp => ?_, fun he hp => ?_⟩
  · obtain ⟨h1, h2⟩ := h.acked (by omega) hp
    obtain ⟨h3, h4⟩ := h'.acked (by omega) h1
    exact ⟨h3, h4.trans h2⟩
  · exact h'.aborted (by omega) (h.aborted (by omega) hp)
  · exact h'.swept (by omega) (h.swept (by omega) hp)

instance : Trans Later Later Later := ⟨Later.trans⟩

/-- A move leads to a later value. -/
theorem Moves.later (hx : Sane x) (h : Moves x y) : Later x y := by
  cases h with
  | stay he hp ha => exact ⟨he.ge, fun _ h => ⟨hp ▸ h, ha⟩, fun _ h => hp ▸ h, fun _ h => hp ▸ h⟩
  | ack he hx' hy => exact ⟨he.ge, by simp [hx'], by simp [hx'], by simp [hx']⟩
  | start he hy => exact ⟨by omega, by omega, by omega, by omega⟩
  | mark he hx' hy => exact ⟨he.ge, by simp [hx'], by simp [hx'], by simp [hx']⟩
  | sweep he hx' hy ha => exact ⟨he.ge, by simp [hy, ha], by simp [hx'], by simp [hx']⟩
  | complete he hx' hy ha => exact ⟨he.ge, by simp [hy, ha], by simp [hx'], by simp [hy]⟩
  | abort he hx' hy ha => exact ⟨he.ge, by simp [hy, ha], by simp [hy], by simp [hx'.1, hx'.2]⟩
  | resweep he h0 hx' hy ha =>
    -- idle, so the last completed epoch is the current one
    have := hx hx'
    exact ⟨by omega, by simp [hy, ha], by simp [hx'], by simp [hy]⟩

theorem sane_apply (w : Write) (x y : GCState) (hx : Sane x) (h : w.apply x = .ok y) : Sane y :=
  (moves_apply h).sane hx

theorem values_moves (ws : List Write) : (values ws).IsChain Moves :=
  Log.isChain_states sane_apply (fun _ _ _ _ h => moves_apply h) (fun _ => rfl) ws

theorem values_later (ws : List Write) : (values ws).Pairwise Later :=
  List.isChain_iff_pairwise.1 (Log.isChain_states sane_apply
    (fun _ _ _ hx h => (moves_apply h).later hx) (fun _ => rfl) ws)

theorem values_sane (ws : List Write) : ∀ x ∈ values ws, Sane x :=
  Log.forall_states sane_apply (fun _ => rfl) ws

section split

variable {ws : List Write} {pre post : List GCState}

theorem moves_of_split (h : values ws = pre ++ x :: y :: post) : Moves x y := by
  have hc := values_moves ws
  rw [h] at hc
  exact (List.isChain_cons_cons.1 (List.isChain_append.1 hc).2.1).1

/-- An epoch that is idle has been through its sweep. -/
theorem swept_of_idle (h : values ws = pre ++ x :: post) (hx : x.phase = .idle)
    (h0 : x.epoch ≠ 0) : ∃ z ∈ pre, z.phase = .sweep ∧ z.epoch = x.epoch := by
  induction pre using List.reverseRecOn generalizing x post with
  | nil =>
    obtain ⟨rest, hrest⟩ := Log.states_eq_cons Write.apply ({} : GCState) ws
    obtain rfl : ({} : GCState) = x := (List.cons.inj (hrest.symm.trans h)).1
    exact absurd rfl h0
  | append_singleton pre u ih =>
    have h' : values ws = pre ++ u :: x :: post := by simpa using h
    cases moves_of_split h' with
    | stay he hp =>
      obtain ⟨z, hz, h1, h2⟩ := ih h' (hp ▸ hx) (he ▸ h0)
      exact ⟨z, List.mem_append_left _ hz, h1, h2.trans he.symm⟩
    | complete he hu => exact ⟨u, by simp, hu, he.symm⟩
    | _ => simp_all

end split

/-- A barrier starts under an epoch above every earlier one; an epoch that has left its barrier
keeps its acked set; the sweep is entered from the epoch's own mark, or for the epoch completed
last; and an aborted epoch is never in its sweep. -/
theorem epochs_wellFormed (ws : List Write) :
    (∀ pre x y post, values ws = pre ++ x :: y :: post → y.phase = .barrier →
      ¬ (x.phase = .barrier ∧ x.epoch = y.epoch) → ∀ z ∈ pre ++ [x], z.epoch < y.epoch) ∧
    (values ws).Pairwise (fun x y => x.epoch = y.epoch → x.phase ≠ .barrier →
      y.phase ≠ .barrier ∧ y.acked = x.acked) ∧
    (∀ pre x y post, values ws = pre ++ x :: y :: post → y.phase = .sweep →
      ¬ (x.phase = .sweep ∧ x.epoch = y.epoch) → x.phase = .mark ∧ x.epoch = y.epoch ∨
        x.phase = .idle ∧ y.epoch = x.lastOK ∧
          ∃ z ∈ pre, z.phase = .sweep ∧ z.epoch = x.lastOK) ∧
    ∀ x ∈ values ws, ∀ y ∈ values ws, x.phase = .aborted → y.phase = .sweep →
      x.epoch ≠ y.epoch := by
  have hlater := values_later ws
  refine ⟨fun pre x y post h hy hne z hz => ?_, hlater.imp fun {x y} h => h.acked,
    fun pre x y post h hy hne => ?_, fun x hx y hy ha hs he => ?_⟩
  · have hxy : y.epoch = x.epoch + 1 := by
      cases moves_of_split h with
      | start he => exact he
      | stay he hp => exact absurd ⟨hp ▸ hy, he.symm⟩ hne
      | ack he hx => exact absurd ⟨hx, he.symm⟩ hne
      | _ => simp_all
    rcases List.mem_append.1 hz with hz | hz
    · rw [h] at hlater
      have := ((List.pairwise_append.1 hlater).2.2 z hz x (by simp)).epoch
      omega
    · obtain rfl := List.mem_singleton.1 hz
      omega
  · have hsane : Sane x := values_sane ws x (by simp [h])
    cases moves_of_split h with
    | sweep he hx => exact .inl ⟨hx, he.symm⟩
    | resweep he h0 hx =>
      have hl := hsane hx
      obtain ⟨z, hz, h1, h2⟩ := swept_of_idle h hx (hl ▸ h0)
      exact .inr ⟨hx, he, z, hz, h1, h2.trans hl.symm⟩
    | stay he hp => exact absurd ⟨hp ▸ hy, he.symm⟩ hne
    | _ => simp_all
  · -- whichever of the two came first, its phase rules out the other's
    have hpair : (values ws).Pairwise fun x y => x.epoch = y.epoch →
        ¬ (x.phase = .aborted ∧ y.phase = .sweep) ∧ ¬ (y.phase = .aborted ∧ x.phase = .sweep) := by
      refine hlater.imp fun {x y} h he => ⟨fun ⟨h1, h2⟩ => ?_, fun ⟨h1, h2⟩ => ?_⟩
      · simp [h.aborted he h1] at h2
      · simpa [h1] using h.swept he (.inl h2)
    have hsymm : Std.Symm fun x y : GCState => x.epoch = y.epoch →
        ¬ (x.phase = .aborted ∧ y.phase = .sweep) ∧ ¬ (y.phase = .aborted ∧ x.phase = .sweep) :=
      ⟨fun _ _ h he => (h he.symm).symm⟩
    exact (hpair.forall_of_forall (fun _ _ _ => by simp_all) hx hy he).1 ⟨ha, hs⟩

end Dstore.Gc

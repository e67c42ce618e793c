import Dstore.Proofs.Transition

/-!
# Finished passes and their reports

A pass is saved as finished and then reported with one CAS, whose failure nobody sees: a finished
pass is not looked at again, nor after a restart. Where the CAS goes through in the step that saves
the pass, every saved pass of the transition in force is listed as far as it went.
-/

namespace Dstore.Cluster.Transition

variable {v u w : View} {p : Pending} {c : Change} {s s' : State} {a : Action} {n : NodeID}
  {x : Xfer} {past : List View}

/-- The CAS of the last report, which fails only where its change function refuses. -/
def State.deliver (s : State) : State :=
  match s.reports with
  | [] => s
  | r :: _ => ((s.cas r.change).map ({ s with toRegister := · })).getD s

/-- The step saves progress. -/
def Action.saves : Action → Bool
  | .primary _ | .finish _ => true
  | _ => false

/-- A step whose report is delivered with it. -/
def reportingStep (s : State) (a : Action) : Option State :=
  (step s a).map fun t => if a.saves then t.deliver else t

/-- What a step finds once it has adopted a transition is a pass of that transition. -/
def rereads (s : State) : Action → Bool
  | .reread n =>
    match s.pass n with
    | .rereading p => (s.mem n).all fun x => x.id = p.id
    | _ => true
  | _ => true

/-- The pass that is being walked. -/
def Pass.current : Pass → List Xfer
  | .walking _ x => [x]
  | _ => []

/-- All passes a node knows of. -/
def State.passes (s : State) (n : NodeID) : List Xfer :=
  (s.mem n).toList ++ s.disk n ++ (s.pass n).current

/-- The view lists the node as far as its pass says. -/
structure Listed (v : View) (n : NodeID) (x : Xfer) : Prop where
  id : x.id ≤ v.epoch
  round : ∀ p ∈ v.pending, x.id = p.id → x.round ≤ p.round
  done : ∀ p ∈ v.pending, x.isFor p → x.finished → n ∈ p.done
  primary : ∀ p ∈ v.pending, x.isFor p → x.primary → n ∈ p.primaryDone

/-- A CAS takes nobody off the lists of the same transition and round. -/
theorem Listed.cas (h : Listed v n x) (hu : casView c v = .ok u) : Listed u n x := by
  obtain ⟨bump, hp, he⟩ := pends_casView hu
  have hid : x.id ≤ u.epoch := by
    have := h.id
    rw [he]
    split_ifs <;> omega
  cases hp with
  | none hn => exact ⟨hid, by simp [hn], by simp [hn], by simp [hn]⟩
  | @proposed p hn hid' =>
    have hne : ∀ q ∈ u.pending, x.id ≠ q.id := by
      intro q hq
      obtain rfl := Option.mem_unique hn hq
      have := h.id
      omega
    have hfor : ∀ q ∈ u.pending, ¬ x.isFor q := fun q hq hx => hne q hq (of_decide_eq_true hx).1
    exact ⟨hid, fun q hq heq => absurd heq (hne q hq), fun q hq hx => absurd hx (hfor q hq),
      fun q hq hx => absurd hx (hfor q hq)⟩
  | @moved p p' h0 hn hid' hm =>
    have hround := h.round p h0
    have hback : p'.round = p.round → x.isFor p' → x.isFor p := fun hr hx => by
      simpa [Xfer.isFor, hid', hr] using hx
    refine ⟨hid, fun q hq heq => ?_, fun q hq hx hf => ?_, fun q hq hx hf => ?_⟩ <;>
      obtain rfl := Option.mem_unique hn hq
    · have hle := hround (heq.trans hid')
      cases hm <;> omega
    · cases hm with
      | kept _ _ hr hd => exact hd ▸ h.done p h0 (hback hr hx) hf
      | done _ _ _ hr hd => exact hd ▸ mem_addID.2 (.inl (h.done p h0 (hback hr hx) hf))
      | freeze _ _ hr hd => exact hd ▸ h.done p h0 (hback hr hx) hf
      | refreeze _ _ _ hr =>
        have hx' := of_decide_eq_true hx
        have := hround (hx'.1.trans hid')
        omega
    · cases hm with
      | kept _ _ hr _ hpd => exact hpd (h.primary p h0 (hback hr hx) hf)
      | done _ _ _ hr _ hpd => exact hpd ▸ h.primary p h0 (hback hr hx) hf
      | freeze _ _ hr _ hpd => exact hpd ▸ h.primary p h0 (hback hr hx) hf
      | refreeze _ _ _ hr =>
        have hx' := of_decide_eq_true hx
        have := hround (hx'.1.trans hid')
        omega

theorem Known.listed (h : Known past v) (hw : w ∈ past) (hp : p ∈ w.pending) :
    Listed v n ⟨p.id, p.round, false, false⟩ where
  id := (h.id w hw p hp).trans (h.epoch w hw)
  round q hq heq := h.round w hw p hp q hq heq
  done := by simp
  primary := by simp

/-- The pass with this progress saved. -/
def Xfer.mark (x : Xfer) (primary : Bool) : Xfer :=
  if primary then { x with primary := true } else { x with finished := true }

/-- The change that reports this progress. -/
def mark (primary : Bool) (n : NodeID) (id : ℕ) : Change :=
  if primary then .primaryDone n id else .done n id

/-- A report puts the node on its list. -/
theorem Listed.marked {b : Bool} (h : Listed v n x) (hu : casView (mark b n x.id) v = .ok u) :
    Listed u n (x.mark b) := by
  have h' := h.cas hu
  obtain ⟨nv, bump, happ, rfl⟩ := casView_ok hu
  cases b with
  | false =>
    obtain ⟨p, -, -, hn⟩ := casPending_ok happ
    refine ⟨h'.id, h'.round, fun q hq _ _ => ?_, h'.primary⟩
    obtain rfl := Option.mem_unique hn hq
    exact mem_addID.2 (.inr rfl)
  | true =>
    obtain ⟨p, -, -, hn⟩ := casPending_ok happ
    refine ⟨h'.id, h'.round, h'.done, fun q hq _ _ => ?_⟩
    obtain rfl := Option.mem_unique hn hq
    exact mem_addID.2 (.inr rfl)

theorem Listed.refused {b : Bool} {e : Err} (h : Listed v n x)
    (hu : casView (mark b n x.id) v = .error e) : Listed v n (x.mark b) := by
  have hne : ∀ p ∈ v.pending, x.id ≠ p.id := by
    intro p hp heq
    obtain hp : v.pending = some p := hp
    cases b <;> simp [casView, mark, Change.apply, casPending, hp, heq] at hu
  have hfor : ∀ p ∈ v.pending, ¬ (x.mark b).isFor p := fun p hp hx => by
    refine hne p hp ?_
    cases b <;> exact (of_decide_eq_true hx).1
  refine ⟨?_, fun p hp heq => absurd ?_ (hne p hp), fun p hp hx => absurd hx (hfor p hp),
    fun p hp hx => absurd hx (hfor p hp)⟩ <;> cases b
  · exact h.id
  · exact h.id
  · exact heq
  · exact heq

/-- The view lists every pass as far as it was saved. -/
structure Reported (s : State) : Prop where
  mem : s.view ∈ s.past
  known : Known s.past s.view
  passes : ∀ n, ∀ x ∈ s.passes n, Listed s.view n x
  walking : ∀ n p x, s.pass n = .walking p x → x.id = p.id
  adopting : ∀ n w, s.pass n = .adopting w → w ∈ s.past

namespace Reported

theorem cas (h : Reported s) (hu : casView c s.view = .ok u) :
    Reported { s with view := u, past := u :: s.past } where
  mem := List.mem_cons_self
  known := h.known.cas h.mem hu
  passes n x hx := (h.passes n x hx).cas hu
  walking := h.walking
  adopting n w hw := List.mem_cons_of_mem _ (h.adopting n w hw)

theorem goto {q : Pass} (h : Reported s) (hq : ∀ x ∈ q.current, Listed s.view n x)
    (hw : ∀ p x, q = .walking p x → x.id = p.id) (ha : ∀ w, q = .adopting w → w ∈ s.past) :
    Reported { s with pass := Function.update s.pass n q } := by
  refine ⟨h.mem, h.known, fun m x hx => ?_, fun m p x hm => ?_, fun m w hm => ?_⟩ <;>
    rcases eq_or_ne m n with rfl | hmn
  · simp only [State.passes, Function.update_self, List.mem_append] at hx
    rcases hx with hx | hx
    · exact h.passes m x (List.mem_append_left _ (List.mem_append.2 hx))
    · exact hq x hx
  · simp only [State.passes, Function.update_of_ne hmn] at hx
    exact h.passes m x hx
  · exact hw p x (by simpa using hm)
  · exact h.walking m p x (by simpa [Function.update_of_ne hmn] using hm)
  · exact ha w (by simpa using hm)
  · exact h.adopting m w (by simpa [Function.update_of_ne hmn] using hm)

theorem idle (h : Reported s) : Reported { s with pass := Function.update s.pass n .idle } :=
  h.goto (by simp [Pass.current]) (by simp) (by simp)

theorem walk (h : Reported s) (hx : Listed s.view n x) (hid : x.id = p.id) :
    Reported { s with pass := Function.update s.pass n (.walking p x) } := by
  refine h.goto ?_ ?_ (by simp)
  · simpa [Pass.current] using hx
  · rintro p x ⟨⟩
    exact hid

theorem keep {o : Option Xfer} {d : List Xfer} (h : Reported s)
    (ho : ∀ x ∈ o, Listed s.view n x) (hd : ∀ x ∈ d, Listed s.view n x) :
    Reported { s with mem := Function.update s.mem n o, disk := Function.update s.disk n d } := by
  refine ⟨h.mem, h.known, fun m x hx => ?_, h.walking, h.adopting⟩
  rcases eq_or_ne m n with rfl | hmn
  · simp only [State.passes, Function.update_self, List.mem_append, Option.mem_toList] at hx
    rcases hx with (hx | hx) | hx
    · exact ho x hx
    · exact hd x hx
    · exact h.passes m x (List.mem_append_right _ hx)
  · simp only [State.passes, Function.update_of_ne hmn] at hx
    exact h.passes m x hx

theorem of_mem (h : Reported s) (hx : x ∈ s.mem n) : Listed s.view n x :=
  h.passes n x (by simp [State.passes, Option.mem_def.1 hx])

theorem of_disk (h : Reported s) (hx : x ∈ s.disk n) : Listed s.view n x :=
  h.passes n x (by simp [State.passes, hx])

/-- A pass that is begun has nothing to be listed. -/
theorem adoptTransition (h : Reported s) (hw : w ∈ s.past) (hp : p ∈ w.pending) :
    Reported (s.adoptTransition n w p) := by
  unfold State.adoptTransition
  split_ifs
  · exact h
  · split
    · rename_i x hf
      have hx := h.of_disk (List.mem_of_find?_eq_some hf)
      have h' := h.keep (o := some x) (d := s.disk n) (fun y hy => Option.mem_some.1 hy ▸ hx)
        fun y => h.of_disk
      rwa [Function.update_eq_self] at h'
    · have hx : Listed s.view n { id := p.id, round := p.round } := h.known.listed hw hp
      refine h.keep (fun x hx' => Option.mem_some.1 hx' ▸ hx) fun x hx' => ?_
      rcases List.mem_cons.1 hx' with rfl | hx'
      · exact hx
      · exact h.of_disk (List.mem_of_mem_filter hx')

theorem saveXfer (h : Reported s) (hx : Listed s.view n x) (hid : x.id = p.id) :
    Reported (s.saveXfer n p x) := by
  refine (h.keep (fun y hy => ?_) fun y hy => ?_).walk hx hid
  · obtain ⟨z, hz, rfl⟩ := Option.map_eq_some_iff.1 hy
    split_ifs
    · exact hx
    · exact h.of_mem hz
  · rcases List.mem_cons.1 hy with rfl | hy
    · exact hx
    · exact h.of_disk (List.mem_of_mem_filter hy)

/-- Progress that is saved and delivered is listed. -/
theorem save {b : Bool} {f : NodeID → Pass} {finished : List (NodeID × ℕ × ℕ)} (h : Reported s)
    (hp : s.pass n = .walking p x)
    (hf : f = (s.saveXfer n p (x.mark b)).pass ∨
      f = Function.update (s.saveXfer n p (x.mark b)).pass n .idle) :
    Reported (State.deliver { s.saveXfer n p (x.mark b) with
      pass := f
      reports := ⟨n, p.id, b, x.mark b⟩ :: s.reports
      finished := finished }) := by
  have hid := h.walking n p x hp
  have hid' : (x.mark b).id = p.id := by cases b <;> exact hid
  have hx : Listed s.view n x := h.passes n x (by simp [State.passes, hp, Pass.current])
  have hgoto : ∀ t, Reported t → t.pass = (s.saveXfer n p (x.mark b)).pass →
      Reported { t with pass := f } := by
    intro t ht heq
    rcases hf with rfl | rfl <;> rw [← heq]
    · exact ht
    · exact ht.idle
  have hc : Report.change ⟨n, p.id, b, x.mark b⟩ = mark b n x.id := by rw [hid]; rfl
  simp only [State.deliver, hc, Register.cas]
  cases hu : casView (mark b n x.id) s.view with
  | error e =>
    have h' := hgoto _ (h.saveXfer (hx.refused hu) hid') rfl
    simp only [State.saveXfer, hu]
    exact ⟨h'.mem, h'.known, h'.passes, h'.walking, h'.adopting⟩
  | ok u =>
    have h' := hgoto _ ((h.cas hu).saveXfer (hx.marked hu) hid') rfl
    simp only [State.saveXfer, hu]
    exact ⟨h'.mem, h'.known, h'.passes, h'.walking, h'.adopting⟩

/-- A step keeps the lists ahead of the passes. -/
theorem step (h : Reported s) (hok : rereads s a) (hr : reportingStep s a = some s') :
    Reported s' := by
  obtain ⟨t, hs, rfl⟩ := Option.map_eq_some_iff.1 hr
  clear hr
  cases a with
  | change c =>
    simp only [Transition.step] at hs
    split_ifs at hs
    obtain ⟨u, hu, rfl⟩ := Register.cas_eq_some hs
    exact h.cas hu
  | drive w now =>
    simp only [Transition.step] at hs
    split at hs
    · split_ifs at hs
      obtain ⟨u, hu, rfl⟩ := Register.cas_eq_some hs
      exact h.cas hu
    · cases hs
  | onEpoch n w =>
    simp only [Transition.step] at hs
    split at hs
    · split_ifs at hs with hw
      cases hs
      exact h.adoptTransition hw ‹_›
    · cases hs
  | committed n w =>
    simp only [Transition.step] at hs
    split_ifs at hs
    cases hs
    exact h.keep (by simp) (by simp)
  | look n w =>
    simp only [Transition.step] at hs
    split at hs
    · split_ifs at hs with hw
      split at hs
      · cases hs
        refine h.goto (by simp [Pass.current]) (by simp) ?_
        rintro w ⟨⟩
        exact hw.1
      · split_ifs at hs
        cases hs
        obtain ⟨hx, hfor⟩ := Option.filter_eq_some_iff.1 ‹_›
        exact h.walk (h.of_mem hx) (of_decide_eq_true hfor).1
    · cases hs
  | adopt n =>
    simp only [Transition.step] at hs
    split at hs
    · split at hs
      · cases hs
        exact (h.adoptTransition (h.adopting n _ ‹_›) ‹_›).goto (by simp [Pass.current]) (by simp)
          (by simp)
      · cases hs
    · cases hs
  | reread n =>
    simp only [Transition.step] at hs
    split at hs
    · rename_i p x hp hx
      split_ifs at hs <;> cases hs
      · exact h.idle
      · exact h.walk (h.of_mem hx) (by simpa [rereads, hp, hx] using hok)
    · cases hs
      exact h.idle
    · cases hs
  | rest n =>
    simp only [Transition.step] at hs
    split at hs <;> cases hs
    exact h.idle
  | primary n =>
    simp only [Transition.step] at hs
    split at hs
    · split_ifs at hs
      cases hs
      exact h.save (b := true) ‹_› (.inl rfl)
    · cases hs
  | finish n =>
    simp only [Transition.step] at hs
    split at hs
    · split_ifs at hs
      cases hs
      exact h.save (b := false) ‹_› (.inr rfl)
    · cases hs
  | report r =>
    simp only [Transition.step] at hs
    split_ifs at hs
    obtain ⟨u, hu, rfl⟩ := Register.cas_eq_some hs
    exact h.cas hu
  | restart n =>
    cases hs
    have h' := (h.keep (o := none) (by simp) fun x (hx : x ∈ s.disk n) => h.of_disk hx).idle
      (n := n)
    rwa [Function.update_eq_self] at h'

theorem start (hv : v.pending = none) : Reported (start v) := by
  obtain ⟨hm, hk, -⟩ := inv_start hv
  exact ⟨hm, hk, by simp [State.passes, Transition.start, Pass.current],
    by simp [Transition.start], by simp [Transition.start]⟩

end Reported

theorem run_of_reportingStep (hs : reportingStep s a = some s') :
    ∃ acts, Machine.run step s acts = some s' := by
  obtain ⟨t, ht, rfl⟩ := Option.map_eq_some_iff.1 hs
  have hone : Machine.run step s [a] = some t := Machine.run_cons.2 ⟨t, ht, rfl⟩
  split_ifs
  · unfold State.deliver
    split
    · exact ⟨[a], hone⟩
    · rename_i r _ hr
      cases hc : t.cas r.change with
      | none => exact ⟨[a], hone⟩
      | some u =>
        have hrep : step t (.report r) = some { t with toRegister := u } := by simp [step, hr, hc]
        exact ⟨[a, .report r], Machine.run_cons.2 ⟨t, ht, Machine.run_cons.2 ⟨_, hrep, rfl⟩⟩⟩
  · exact ⟨[a], hone⟩

theorem run_of_reporting {acts : List Action} (hrun : s' ∈ Machine.run reportingStep s acts) :
    ∃ acts, s' ∈ Machine.run step s acts := by
  refine Machine.invariant (P := fun t => ∃ acts, t ∈ Machine.run step s acts) ?_ acts ⟨[], rfl⟩
    hrun
  rintro t a t' ⟨acts, ht⟩ hs
  obtain ⟨more, hmore⟩ := run_of_reportingStep hs
  exact ⟨acts ++ more, Machine.run_append.2 ⟨t, ht, hmore⟩⟩

/-- In a run in which the CAS that reports a pass goes through in the step that saves the pass, and
a step that adopts a transition finds a pass of that transition: whose pass for the transition in
force is finished is listed as done, and who has offered what it forwards at once as such. -/
theorem reported_pass {acts : List Action} (hv : v.pending = none)
    (hok : Machine.Along reportingStep (fun s a => rereads s a) (start v) acts)
    (hrun : s ∈ Machine.run reportingStep (start v) acts) :
    (∃ acts, s ∈ Machine.run step (start v) acts) ∧
      ∀ n, ∀ x ∈ s.passes n, ∀ p ∈ s.view.pending, x.isFor p →
        (x.finished → n ∈ p.done) ∧ (x.primary → n ∈ p.primaryDone) := by
  have h : Reported s := Machine.invariant_along (fun _ _ _ h hok hs => h.step hok hs) acts
    (.start hv) hok hrun
  exact ⟨run_of_reporting hrun, fun n x hx p hp hfor =>
    ⟨(h.passes n x hx).done p hp hfor, (h.passes n x hx).primary p hp hfor⟩⟩

namespace Duo

/-- One of two participants is through its pass. -/
def passed : List Action := proposedTwo ++ pass 1 (after proposedTwo)

/-- A restart, after which the node finds its pass on disk. -/
def resumed (n : NodeID) (v : View) : List Action := [.restart n, .look n v, .adopt n, .reread n]

end Duo

theorem reported_pass_first : ∃ s ∈ Machine.run reportingStep (start Duo.first) Duo.passed,
    ∃ p ∈ s.view.pending, ∃ x ∈ s.passes 1, x.isFor p ∧ x.finished ∧ 1 ∈ p.done ∧
      1 ∈ p.primaryDone := by
  have hok : Machine.Along reportingStep (fun s a => rereads s a) (start Duo.first) Duo.passed := by
    decide +kernel
  have hend : ∃ s ∈ Machine.run reportingStep (start Duo.first) Duo.passed,
      ∃ p ∈ s.view.pending, ∃ x ∈ s.passes 1, x.isFor p ∧ x.finished ∧ x.primary := by
    decide +kernel
  obtain ⟨s, hrun, p, hp, x, hx, hfor, hf, hprim⟩ := hend
  have h := (reported_pass rfl hok hrun).2 1 x hx p hp hfor
  exact ⟨s, hrun, p, hp, x, hx, hfor, hf, h.1 hf, h.2 hprim⟩

/-- With both CASes lost, the finished pass is in no list, the node's steps no longer look at it,
and a restart leads back to the same: no report is made again. -/
theorem unreported_pass : ∃ s ∈ Machine.run step (start Duo.first) Duo.passed,
    ∃ p ∈ s.view.pending, p.frozen ∧ 1 ∈ p.participants ∧
      (∃ x ∈ s.mem 1, x.isFor p ∧ x.finished ∧ s.disk 1 = [x]) ∧
      1 ∉ p.done ∧ 1 ∉ p.primaryDone ∧ step s (.look 1 s.view) = none ∧
      ∃ s' ∈ Machine.run step s (Duo.resumed 1 s.view),
        s'.view = s.view ∧ s'.mem 1 = s.mem 1 ∧ s'.disk 1 = s.disk 1 ∧ s'.pass 1 = s.pass 1 ∧
          s'.reports = s.reports ∧ step s' (.look 1 s'.view) = none := by
  decide +kernel

end Dstore.Cluster.Transition

import Dstore.Gate
import Dstore.Proofs.Rounds
import Dstore.Proofs.Serve

/-!
# Epoch gating

The installed view never goes back, a call that passed the view check finds it at the message's
epoch or later, and a proposer counts a reply only where its stamp is the message's epoch. So the
view stood at exactly that epoch when the row was looked at. Left alone, a call does what
`Acceptor.handle` does in one step.
-/

namespace Dstore

/-- The coordinates a message carries. -/
def Msg.rank (m : Msg) : ℕ ×ₗ ℕ := toLex (m.incarnation, m.epoch)

/-- The coordinates an answer carries. -/
def Answer.rank (ans : Answer) : ℕ ×ₗ ℕ := toLex (ans.incarnation, ans.epoch)

/-- A reply that a quorum may count. -/
def Reply.counted : Reply → Bool
  | .promise _ _ _ | .accepted | .readReply _ _ _ _ | .scanReply _ _ _ => true
  | _ => false

namespace Acceptor

variable {a : Acceptor} {v : View} {m : Msg} {r : Reply} {now : ℤ}

theorem checkView_counted (h : a.checkView m = some r) : r.counted = false := by
  unfold checkView at h
  split at h
  · cases h
    rfl
  · split at h <;> cases h <;> rfl

theorem checkView_none (h : a.checkView m = none) :
    ∃ inst, a.installed = some inst ∧ inst.rank = m.rank := by
  unfold checkView at h
  split at h
  · cases h
  · rename_i inst hi
    split at h <;> cases h
    rename_i heq
    obtain ⟨h1, h2⟩ := View.compare_eq.1 heq
    exact ⟨inst, hi, by rw [View.rank, Msg.rank, h1, h2]⟩

/-- What the checks refuse is not counted. -/
theorem checkState_counted {req : Req} (h : a.checkState req = some r) : r.counted = false := by
  have hf : ∀ r, a.refuseIfForgetful = some r → r.counted = false := by
    intro r hr
    unfold refuseIfForgetful at hr
    split_ifs at hr <;> cases hr <;> rfl
  unfold checkState at h
  split at h
  · split_ifs at h
    cases h
    rfl
  · exact hf r h
  · exact hf r h
  · exact hf r h
  · cases h

theorem rowOp_installed (a : Acceptor) (now : ℤ) (req : Req) :
    (a.rowOp now req).1.installed = a.installed := by
  cases req <;> simp only [rowOp] <;> split_ifs <;> rfl

theorem writeView_installed (a : Acceptor) (v : View) :
    (a.writeView v).installed = a.installed := by
  unfold writeView
  split_ifs <;> rfl

theorem putView_installed (a : Acceptor) (v : View) : (a.putView v).installed = some v := by
  unfold putView
  split_ifs <;> rfl

theorem putView_writeView (a : Acceptor) (v : View) : (a.writeView v).putView v =
    if a.retires v then { a with installed := some v, retired := true, rows := .empty, floor := ⊥ }
    else { a with installed := some v } := by
  cases h : a.retires v with
  | true =>
    have h' : ({ a with rows := .empty } : Acceptor).retires v = true := h
    simp [writeView, putView, h, h']
  | false => simp [writeView, putView, h]

theorem install_eq (a : Acceptor) (v : View) :
    a.install v = if (a.installed.map (·.covers v)).getD false then a
      else (a.writeView v).putView v := by
  rw [putView_writeView]
  obtain ⟨self, installed, marker, retired, floor, rows⟩ := a
  cases installed <;> rfl

/-- `serve` is the checks and then the row. -/
theorem serve_eq (req : Req) : a.serve now req =
    match a.checkState req with
    | some r => (a, r)
    | none => a.rowOp now req := by
  cases req with
  | prepare reg b =>
    simp only [serve, prepare, checkState]
    cases a.refuseIfForgetful <;> rfl
  | accept reg b value hasValue notAfter =>
    simp only [serve, accept, checkState]
    by_cases h : a.retired = true
    · rw [if_pos h, if_pos h]
    · rw [if_neg h, if_neg h]
      rfl
  | read reg =>
    simp only [serve, read, checkState]
    cases a.refuseIfForgetful <;> rfl
  | scan pre after limit =>
    simp only [serve, scan, checkState]
    cases a.refuseIfForgetful <;> rfl
  | _ => rfl

theorem gate_eq : a.gate now m =
    match a.checkView m with
    | some r => (a, r)
    | none => a.serve now m.req := by
  unfold gate checkView
  cases a.installed with
  | none => rfl
  | some inst =>
    dsimp only
    cases inst.compare m.incarnation m.epoch <;> rfl

end Acceptor

namespace Gate

open Machine

variable {s s' t t' : State} {i j : ℕ} {c d : Call} {st : Stage} {a : Action} {as : List Action}
  {m : Msg} {v : View} {r : Reply} {now : ℤ}

/-- The rank of a view that may be missing. -/
def top (o : Option View) : WithBot (ℕ ×ₗ ℕ) := o.map View.rank

@[simp] theorem top_some (v : View) : top (some v) = v.rank := rfl

/-- What one step of a call comes to: the stage it is then at, and the state. -/
inductive Moved (s : State) (i : ℕ) (c : Call) (now : ℤ) : Stage → State → Prop
  | gate (hst : c.stage = .entered) (hc : s.acc.checkView c.msg = none) :
      Moved s i c now .gated (s.put i c .gated)
  | clear (hst : c.stage = .gated) : Moved s i c now .cleared (s.put i c .cleared)
  | refuse {r : Reply} (hst : c.stage = .entered ∨ c.stage = .gated) (hr : r.counted = false) :
      Moved s i c now (.replied r) (s.put i c (.replied r))
  | maintain {p : Acceptor × Reply} (hst : c.stage = .entered) (hr : p.2.counted = false)
      (hp : p.1.installed = s.acc.installed) : Moved s i c now (.replied p.2) (s.act i c p)
  | write {v : View} (hst : c.stage = .entered) (hl : s.lock = none)
      (hv : top s.acc.installed ≤ v.rank) : Moved s i c now (.installing v)
        { s.put i c (.installing v) with acc := s.acc.writeView v, lock := some v }
  | row (hst : c.stage = .cleared) : Moved s i c now
      (.replied (s.acc.rowOp now c.msg.req).2) (s.act i c (s.acc.rowOp now c.msg.req))
  | place {v : View} (hst : c.stage = .installing v) : Moved s i c now (.replied .installed)
      { s.put i c (.replied .installed) with acc := s.acc.putView v, lock := none }
  | stamp {r : Reply} (hst : c.stage = .replied r) (hl : s.lock = none) :
      Moved s i c now (.answered ⟨s.acc.coords.1, s.acc.coords.2, r⟩)
        (s.put i c (.answered ⟨s.acc.coords.1, s.acc.coords.2, r⟩))

/-- What each step does, with what it found. -/
inductive Stepped (s : State) : Action → State → Prop
  | handle {i : ℕ} {m : Msg} (h : s.calls i = none) : Stepped s (.handle i m)
      { s with calls := Function.update s.calls i (some { msg := m }) }
  | advance {i : ℕ} {now : ℤ} {c : Call} {st : Stage} {s' : State} (h : s.calls i = some c)
      (hm : Moved s i c now st s') : Stepped s (.advance i now) s'

theorem top_le_of_covers (h : ¬ (s.acc.installed.map (·.covers v)).getD false = true) :
    top s.acc.installed ≤ v.rank := by
  cases hi : s.acc.installed with
  | none => exact bot_le
  | some cur =>
    rw [hi] at h
    have hlt : ¬ v.age ≤ cur.age := fun hle => h (View.covers_iff.2 hle)
    exact WithBot.coe_le_coe.2 (View.rank_le_of_age_le (not_le.1 hlt).le)

/-- A call that enters under the lock. -/
theorem enter_moved (hst : c.stage = .entered) (hl : s.lock = none) :
    ∃ st, Moved s i c now st (s.enter i c) := by
  have hcheck : ∃ st, Moved s i c now st (s.check i c (s.acc.checkView c.msg) .gated) := by
    unfold State.check
    split
    · exact ⟨_, .refuse (.inl hst) (Acceptor.checkView_counted ‹_›)⟩
    · exact ⟨_, .gate hst ‹_›⟩
  unfold State.enter
  split
  · split_ifs with hcov
    · exact ⟨_, .refuse (.inl hst) rfl⟩
    · exact ⟨_, .write hst hl (top_le_of_covers hcov)⟩
  · exact ⟨_, .maintain hst rfl rfl⟩
  · exact ⟨_, .maintain hst rfl rfl⟩
  · rename_i reg b hreq
    refine ⟨_, .maintain hst ?_ ?_⟩
    · rcases s.acc.purge_reply reg b with h | ⟨code, text, v, h⟩ <;> simp [h, Reply.counted]
    · rcases s.acc.purge_cases reg b with h | ⟨-, -, ⟨-, h⟩ | h⟩ <;> simp [h, Acceptor.writeRow]
  · exact hcheck

/-- A step is one of those listed. -/
theorem step_stepped (h : step s a = some s') : Stepped s a s' := by
  cases a with
  | handle i m =>
    simp only [step] at h
    split at h
    · cases h
    · cases h
      exact .handle ‹_›
  | advance i now =>
    simp only [step] at h
    split at h
    · cases h
    · rename_i c hc
      split_ifs at h with hlock
      have hfree : c.locks = true → s.lock = none := fun hl => by
        simpa [hl] using hlock
      split at h
      · rename_i hst
        cases h
        obtain ⟨st, hm⟩ := enter_moved (i := i) hst (hfree (by simp [Call.locks, hst]))
        exact .advance hc hm
      · rename_i hst
        cases h
        unfold State.check
        split
        · exact .advance hc (.refuse (.inr hst) (Acceptor.checkState_counted ‹_›))
        · exact .advance hc (.clear hst)
      · cases h
        exact .advance hc (.row ‹_›)
      · cases h
        exact .advance hc (.place ‹_›)
      · rename_i hst
        cases h
        exact .advance hc (.stamp hst (hfree (by simp [Call.locks, hst])))
      · cases h

theorem Moved.calls (hm : Moved s i c now st s') :
    s'.calls = Function.update s.calls i (some { c with stage := st }) := by
  cases hm <;> rfl

theorem of_update {f : ℕ → Option Call} (h : Function.update f i (some c) j = some d) :
    j = i ∧ d = c ∨ j ≠ i ∧ f j = some d := by
  by_cases hj : j = i
  · subst hj
    rw [Function.update_self, Option.some.injEq] at h
    exact .inl ⟨rfl, h.symm⟩
  · rw [Function.update_of_ne hj] at h
    exact .inr ⟨hj, h⟩

/-- A view that is newer than the installed one is the only one under way, and a call past the view
check is not ahead of the installed view. -/
structure Inv (s : State) : Prop where
  lock : ∀ i c v, s.calls i = some c → c.stage = .installing v → s.lock = some v
  one : ∀ i j c d u v, s.calls i = some c → s.calls j = some d → c.stage = .installing u →
    d.stage = .installing v → i = j
  order : top s.acc.installed ≤ top s.stored
  gated : ∀ i c, s.calls i = some c → c.stage = .gated ∨ c.stage = .cleared →
    c.msg.rank ≤ top s.acc.installed

theorem stored_of_lock (h : s.lock = none) : s.stored = s.acc.installed := by
  rw [State.stored, h, Option.none_or]

/-- Views go up, in memory and in the database. -/
theorem Moved.mono (h : Inv s) (hc : s.calls i = some c) (hm : Moved s i c now st s') :
    top s.acc.installed ≤ top s'.acc.installed ∧ top s.stored ≤ top s'.stored ∧
      top s'.acc.installed ≤ top s'.stored := by
  have hsame : ∀ u : State, u.acc.installed = s.acc.installed → u.lock = s.lock →
      top s.acc.installed ≤ top u.acc.installed ∧ top s.stored ≤ top u.stored ∧
        top u.acc.installed ≤ top u.stored := fun u hi hl => by
    have hs : u.stored = s.stored := by rw [State.stored, State.stored, hi, hl]
    rw [hi, hs]
    exact ⟨le_rfl, le_rfl, h.order⟩
  cases hm with
  | maintain hst hr hp => exact hsame _ hp rfl
  | write hst hl hv =>
    have hi := s.acc.writeView_installed
    refine ⟨by simp only [hi]; exact le_rfl, ?_, by simp only [hi]; exact hv⟩
    rw [stored_of_lock hl]
    exact hv
  | row hst => exact hsame _ (s.acc.rowOp_installed now c.msg.req) rfl
  | @place v hst =>
    have hold : top s.stored = v.rank := by
      rw [State.stored, h.lock i c v hc hst]
      rfl
    have hnew : top (s.acc.putView v).installed = v.rank := by
      rw [s.acc.putView_installed]
      rfl
    exact ⟨(h.order.trans hold.le).trans hnew.ge, hold.le.trans hnew.ge, le_rfl⟩
  | _ => exact hsame _ rfl rfl

/-- A call that moves on keeps the invariant. -/
theorem Moved.inv (h : Inv s) (hc : s.calls i = some c) (hm : Moved s i c now st s') : Inv s' := by
  obtain ⟨hinst, -, horder⟩ := hm.mono h hc
  have hcalls := hm.calls
  have hlock : ∀ j d v, j ≠ i → s.calls j = some d → d.stage = .installing v →
      s'.lock = s.lock := by
    intro j d v hj hd hst
    have hl := h.lock j d v hd hst
    cases hm with
    | write _ hnone => rw [hnone] at hl; cases hl
    | place hst' => exact absurd (h.one j i d c _ _ hd hc hst hst') hj
    | _ => rfl
  refine ⟨fun j d v hd hst => ?_, fun j k d e u v hd he hu hv => ?_, horder,
    fun j d hd hst => ?_⟩
  · rw [hcalls] at hd
    rcases of_update hd with ⟨rfl, rfl⟩ | ⟨hj, hd⟩
    · cases hm <;> simp at hst
      rw [hst]
    · rw [hlock j d v hj hd hst]
      exact h.lock j d v hd hst
  · -- the lock is free when a call comes to install
    have hfree : ∀ u, st = .installing u → s.lock = none := fun u hst => by
      cases hm <;> first | assumption | cases hst
    have hnone : ∀ j d u v, s.calls j = some d → d.stage = .installing u → st = .installing v →
        False := fun j d u v hd hu hv => by
      simpa [hfree v hv] using h.lock j d u hd hu
    rw [hcalls] at hd he
    rcases of_update hd with ⟨rfl, rfl⟩ | ⟨hj, hd'⟩ <;>
      rcases of_update he with ⟨rfl, rfl⟩ | ⟨hk, he'⟩
    · rfl
    · exact (hnone k e v u he' hv hu).elim
    · exact (hnone j d u v hd' hu hv).elim
    · exact h.one j k d e u v hd' he' hu hv
  · rw [hcalls] at hd
    rcases of_update hd with ⟨rfl, rfl⟩ | ⟨hj, hd⟩
    · cases hm with
      | gate _ hcheck =>
        obtain ⟨inst, hi, hr⟩ := Acceptor.checkView_none hcheck
        exact hr ▸ (congrArg top hi).ge
      | clear hst' => exact h.gated j c hc (.inl hst')
      | _ => simp at hst
    · exact (h.gated j d hd hst).trans hinst

/-- Every step keeps the invariant. -/
theorem Stepped.inv (h : Inv s) (hs : Stepped s a s') : Inv s' := by
  cases hs with
  | advance hc hm => exact hm.inv h hc
  | @handle i m hi =>
    have hold : ∀ {j d}, Function.update s.calls i (some { msg := m }) j = some d →
        d.stage ≠ .entered → s.calls j = some d := fun hd hne => by
      rcases of_update hd with ⟨-, rfl⟩ | ⟨-, hd⟩
      · exact absurd rfl hne
      · exact hd
    refine ⟨fun j d v hd hst => h.lock j d v (hold hd (by simp [hst])) hst,
      fun j k d e u v hd he hu hv => h.one j k d e u v (hold hd (by simp [hu]))
        (hold he (by simp [hv])) hu hv, h.order, fun j d hd hst => ?_⟩
    exact h.gated j d (hold hd (by rcases hst with h | h <;> simp [h])) hst

/-- No call is running. -/
structure Initial (s : State) : Prop where
  calls : ∀ i, s.calls i = none
  lock : s.lock = none

theorem Inv.init (h : Initial s) : Inv s :=
  ⟨by simp [h.calls], by simp [h.calls], by rw [stored_of_lock h.lock], by simp [h.calls]⟩

theorem inv_run {s₀ : State} (h₀ : Initial s₀) (hr : run step s₀ as = some s) : Inv s :=
  invariant (fun _ _ _ h hs => (step_stepped hs).inv h) as (.init h₀) hr

theorem le_stamp {lo : WithBot (ℕ ×ₗ ℕ)} (hlo : lo ≠ ⊥) (h : lo ≤ top s.acc.installed) :
    lo ≤ Answer.rank ⟨s.acc.coords.1, s.acc.coords.2, r⟩ := by
  unfold Acceptor.coords
  cases hi : s.acc.installed with
  | none =>
    rw [hi] at h
    exact absurd (le_bot_iff.1 h) hlo
  | some v =>
    rw [hi] at h
    exact h

/-- Call `i`, on message `m`, has got the reply `r`, and was stamped, if it was, by a view no older
than `lo`. -/
def Got (m : Msg) (r : Reply) (lo : WithBot (ℕ ×ₗ ℕ)) (i : ℕ) (s : State) : Prop :=
  ∃ c, s.calls i = some c ∧ c.msg = m ∧ (c.stage = .replied r ∨
    ∃ ans, c.stage = .answered ans ∧ ans.reply = r ∧ lo ≤ ans.rank)

/-- An answer stays as it was given. -/
theorem Got.step {lo : WithBot (ℕ ×ₗ ℕ)} (hlo : lo ≠ ⊥) (hle : lo ≤ top s.stored)
    (hg : Got m r lo i s) (hs : Stepped s a s') : Got m r lo i s' := by
  obtain ⟨c, hc, hmsg, hst⟩ := hg
  cases hs with
  | @handle j m' hj =>
    have hne : i ≠ j := by
      rintro rfl
      rw [hj] at hc
      cases hc
    exact ⟨c, by simpa [Function.update_of_ne hne] using hc, hmsg, hst⟩
  | @advance j now d st s' hd hm =>
    by_cases hij : i = j
    · subst hij
      obtain rfl := Option.some.inj (hc.symm.trans hd)
      refine ⟨{ c with stage := st }, by rw [hm.calls, Function.update_self], hmsg, .inr ?_⟩
      rcases hst with hst | ⟨ans, hst, -⟩
      · cases hm with
        | stamp hst' hl =>
          obtain rfl := Stage.replied.inj (hst.symm.trans hst')
          rw [stored_of_lock hl] at hle
          exact ⟨_, rfl, rfl, le_stamp hlo hle⟩
        | _ => simp_all
      · cases hm <;> simp_all
    · exact ⟨c, by rw [hm.calls, Function.update_of_ne hij]; exact hc, hmsg, hst⟩

theorem Stepped.mono (h : Inv s) (hs : Stepped s a s') : top s.stored ≤ top s'.stored := by
  cases hs with
  | handle => exact le_rfl
  | advance hc hm => exact (hm.mono h hc).2.1

theorem Got.run {lo : WithBot (ℕ ×ₗ ℕ)} (hlo : lo ≠ ⊥) (h : Inv s) (hle : lo ≤ top s.stored)
    (hg : Got m r lo i s) (hr : run Gate.step s as = some s') : Got m r lo i s' := by
  refine (invariant (P := fun u => Inv u ∧ lo ≤ top u.stored ∧ Got m r lo i u)
    (fun u a u' hu hs => ?_) as ⟨h, hle, hg⟩ hr).2.2
  have hs := step_stepped hs
  exact ⟨hs.inv hu.1, hu.2.1.trans (hs.mono hu.1), hu.2.2.step hlo hu.2.1 hs⟩

/-- A counted answer comes of the row, in the step that gave it. -/
theorem row_of_got (hs : Stepped t a t') (hr : r.counted = true) (hn : ¬ Got m r ⊥ i t)
    (hg : Got m r ⊥ i t') : ∃ now, a = .advance i now ∧ t.calls i = some ⟨m, .cleared⟩ ∧
      (t.acc.rowOp now m.req).2 = r ∧ t' = t.act i ⟨m, .cleared⟩ (t.acc.rowOp now m.req) := by
  obtain ⟨c', hc', hmsg, hst⟩ := hg
  cases hs with
  | @handle j m' hj =>
    rcases of_update hc' with ⟨-, rfl⟩ | ⟨-, hc⟩
    · simp at hst
    · exact absurd ⟨c', hc, hmsg, hst⟩ hn
  | @advance j now c st t' hc hm =>
    rw [hm.calls] at hc'
    rcases of_update hc' with ⟨rfl, rfl⟩ | ⟨-, hc⟩
    · obtain ⟨msg, stage⟩ := c
      obtain rfl : msg = m := hmsg
      have hreply : ∀ r', st = .replied r' → r' = r := fun r' h => by
        rcases hst with hst | ⟨ans, hst, -⟩
        · exact Stage.replied.inj (h.symm.trans hst)
        · exact absurd (h.symm.trans hst) (by simp)
      cases hm with
      | row hst' =>
        obtain rfl : stage = .cleared := hst'
        exact ⟨now, rfl, hc, hreply _ rfl, rfl⟩
      | stamp hst' =>
        refine absurd ⟨_, hc, rfl, .inl ?_⟩ hn
        rcases hst with hst | ⟨ans, hst, rfl, -⟩
        · cases hst
        · cases hst
          exact hst'
      | refuse _ hr' | maintain _ hr' => rw [hreply _ rfl, hr] at hr'; cases hr'
      | place => rw [← hreply _ rfl] at hr; cases hr
      | _ => simp at hst
    · exact absurd ⟨c', hc, hmsg, hst⟩ hn

theorem installed_of_top {o : Option View} {x : ℕ ×ₗ ℕ} (h : top o = x) :
    ∃ u, o = some u ∧ u.rank = x := by
  cases o with
  | none => cases h
  | some u => exact ⟨u, rfl, WithBot.coe_injective h⟩

/-- Over every interleaving of the critical sections of concurrent calls: where a proposer counts a
reply to a message of its round, the row operation behind it took effect while the acceptor's view,
the installed one and the one in the database, was of exactly the round's epoch. -/
theorem counted_at_epoch {s₀ : State} (h₀ : Initial s₀) (hr : run step s₀ as = some s) {req : Req}
    {ans : Answer} (hc : s.calls i = some ⟨⟨v.incarnation, v.epoch, req⟩, .answered ans⟩)
    (hk : classify v (some ans) = .ok r) (hcount : r.counted = true) :
    ∃ pre now post t t' inst sv, as = pre ++ .advance i now :: post ∧ run step s₀ pre = some t ∧
      step t (.advance i now) = some t' ∧
      t' = t.act i ⟨⟨v.incarnation, v.epoch, req⟩, .cleared⟩ (t.acc.rowOp now req) ∧
      (t.acc.rowOp now req).2 = r ∧
      t.acc.installed = some inst ∧ inst.incarnation = v.incarnation ∧ inst.epoch = v.epoch ∧
      t.stored = some sv ∧ sv.incarnation = v.incarnation ∧ sv.epoch = v.epoch := by
  set m : Msg := ⟨v.incarnation, v.epoch, req⟩ with hm
  have hans := classify_ok hk
  have hgot : Got m r ⊥ i s := ⟨_, hc, rfl, .inr ⟨ans, rfl, by rw [hans], bot_le⟩⟩
  have hnot : ¬ Got m r ⊥ i s₀ := fun ⟨c, hc, _⟩ => by simp [h₀.calls] at hc
  obtain ⟨pre, a, post, t, t', rfl, h1, h2, h3, h4, h5⟩ := exists_first hr hnot hgot
  have hinv := inv_run h₀ h1
  have hs := step_stepped h2
  obtain ⟨now, rfl, hcall, hrep, rfl⟩ := row_of_got hs hcount h4 h5
  -- below: the view check; above: the stamp
  have hlow : m.rank ≤ top t.acc.installed := hinv.gated i _ hcall (.inr rfl)
  have hne : top t.stored ≠ ⊥ := fun h =>
    absurd (le_bot_iff.1 ((hlow.trans hinv.order).trans h.le)) WithBot.coe_ne_bot
  have hup : Got m r (top t.stored) i s := by
    refine Got.run hne (hs.inv hinv) (hs.mono hinv) ⟨⟨m, .replied r⟩, ?_, rfl, .inl rfl⟩ h3
    rw [← hrep]
    exact Function.update_self ..
  obtain ⟨c, hc', -, hst⟩ := hup
  obtain rfl := Option.some.inj (hc.symm.trans hc')
  obtain ⟨ans', hst, -, hle⟩ := hst.resolve_left (by simp)
  obtain rfl := Stage.answered.inj hst
  have hrank : (ans.rank : WithBot (ℕ ×ₗ ℕ)) = m.rank := by rw [hans]; rfl
  rw [hrank] at hle
  obtain ⟨inst, hi, hir⟩ := installed_of_top (le_antisymm (hinv.order.trans hle) hlow)
  obtain ⟨sv, hsv, hsr⟩ := installed_of_top (le_antisymm hle (hlow.trans hinv.order))
  simp only [View.rank, Msg.rank, hm, EmbeddingLike.apply_eq_iff_eq, Prod.mk.injEq] at hir hsr
  exact ⟨pre, now, post, t, _, inst, sv, rfl, h1, h2, rfl, hrep, hi, hir.1, hir.2, hsv, hsr.1,
    hsr.2⟩

def oneVoter (version : ℕ) : View :=
  { incarnation := 1, epoch := 1, version := version, voters := [⟨1, 1⟩] }

/-- An acceptor that has the view, and nothing else. -/
def atOne : State where
  acc := { self := 1, installed := some (oneVoter 1), marker := some 1 }

/-- A view is installed between a prepare's check and its write. -/
def reinstalled : List Action :=
  [.handle 0 ⟨1, 1, .prepare [7] ⟨1, 1⟩⟩, .advance 0 0,
    .handle 1 ⟨0, 0, .install (oneVoter 2)⟩, .advance 1 0, .advance 1 0, .advance 0 0, .advance 0 0,
    .advance 0 0]

theorem counted_at_epoch_reinstalled :
    ∃ pre now post t t' inst sv, reinstalled = pre ++ .advance 0 now :: post ∧
      run step atOne pre = some t ∧ step t (.advance 0 now) = some t' ∧
      t' = t.act 0 ⟨⟨1, 1, .prepare [7] ⟨1, 1⟩⟩, .cleared⟩
        (t.acc.rowOp now (.prepare [7] ⟨1, 1⟩)) ∧
      (t.acc.rowOp now (.prepare [7] ⟨1, 1⟩)).2 = .promise ⟨0, 0⟩ [] false ∧
      t.acc.installed = some inst ∧ inst.incarnation = 1 ∧ inst.epoch = 1 ∧
      t.stored = some sv ∧ sv.incarnation = 1 ∧ sv.epoch = 1 :=
  have hcall : ((run step atOne reinstalled).get (by decide)).calls 0 =
      some ⟨⟨1, 1, .prepare [7] ⟨1, 1⟩⟩, .answered ⟨1, 1, .promise ⟨0, 0⟩ [] false⟩⟩ := by decide
  counted_at_epoch (v := oneVoter 1) ⟨fun _ => rfl, rfl⟩ (Option.some_get _).symm hcall
    (by decide) rfl

/-- Some steps of call `i` alone lead from `s` to its reply `p.2`, with the acceptor as `p.1`. -/
def Replies (s : State) (i : ℕ) (m : Msg) (now : ℤ) (p : Acceptor × Reply) : Prop :=
  ∃ n u, run step s (List.replicate n (.advance i now)) = some u ∧ u.acc = p.1 ∧ u.lock = none ∧
    u.calls i = some ⟨m, .replied p.2⟩

theorem Replies.step {p : Acceptor × Reply} (hs : Gate.step s (.advance i now) = some s')
    (h : Replies s' i m now p) : Replies s i m now p := by
  obtain ⟨n, u, hr, hu⟩ := h
  exact ⟨n + 1, u, run_cons.2 ⟨s', hs, hr⟩, hu⟩

section alone

variable (hl : s.lock = none)
include hl

theorem replies_cleared (hc : s.calls i = some ⟨m, .cleared⟩) :
    Replies s i m now (s.acc.rowOp now m.req) := by
  have hstep : step s (.advance i now) =
      some (s.act i ⟨m, .cleared⟩ (s.acc.rowOp now m.req)) := by simp [step, hc, hl]
  exact .step hstep ⟨0, _, run_nil _, rfl, hl, Function.update_self ..⟩

theorem replies_check {refusal : Option Reply} {next : Stage} {p : Acceptor × Reply}
    (h : Replies (s.put i ⟨m, st⟩ next) i m now p) :
    Replies (s.check i ⟨m, st⟩ refusal next) i m now
      (match refusal with
        | some r => (s.acc, r)
        | none => p) := by
  cases refusal with
  | none => exact h
  | some r => exact ⟨0, _, run_nil _, rfl, hl, Function.update_self ..⟩

theorem replies_gated (hc : s.calls i = some ⟨m, .gated⟩) :
    Replies s i m now (s.acc.serve now m.req) := by
  have hstep : step s (.advance i now) =
      some (s.check i ⟨m, .gated⟩ (s.acc.checkState m.req) .cleared) := by simp [step, hc, hl]
  rw [Acceptor.serve_eq]
  exact .step hstep (replies_check hl
    (replies_cleared (s := s.put i _ _) hl (Function.update_self ..)))

theorem replies_install {v : View} (hm : m.req = .install v) :
    Replies (s.enter i ⟨m, .entered⟩) i m now (s.acc.install v, .installed) := by
  rw [State.enter, hm, Acceptor.install_eq]
  dsimp only
  split_ifs
  · exact ⟨0, _, run_nil _, rfl, hl, Function.update_self ..⟩
  · set t : State := { s.put i ⟨m, .entered⟩ (.installing v) with
      acc := s.acc.writeView v, lock := some v } with ht
    have hstep : step t (.advance i now) = some { t.put i ⟨m, .installing v⟩ (.replied .installed)
        with acc := t.acc.putView v, lock := none } := by
      simp [step, ht, State.put, Call.locks]
    exact .step hstep ⟨0, _, run_nil _, rfl, rfl, Function.update_self ..⟩

/-- A call that has entered and is left alone answers as `dispatch` does. -/
theorem replies_entered (hc : s.calls i = some ⟨m, .entered⟩) :
    Replies s i m now (s.acc.dispatch now m) := by
  have hstep : step s (.advance i now) = some (s.enter i ⟨m, .entered⟩) := by simp [step, hc, hl]
  refine .step hstep ?_
  have hgate : Replies (s.check i ⟨m, .entered⟩ (s.acc.checkView m) .gated) i m now
      (s.acc.gate now m) := by
    rw [Acceptor.gate_eq]
    exact replies_check hl (replies_gated (s := s.put i _ _) hl (Function.update_self ..))
  obtain ⟨inc, epoch, req⟩ := m
  cases req with
  | install v => exact replies_install hl rfl
  | marker since => exact ⟨0, _, run_nil _, rfl, hl, Function.update_self ..⟩
  | seed rows => exact ⟨0, _, run_nil _, rfl, hl, Function.update_self ..⟩
  | purge reg b => exact ⟨0, _, run_nil _, rfl, hl, Function.update_self ..⟩
  | _ => exact hgate

/-- A call that is left alone does what `handle` does in one step. -/
theorem alone_eq_handle (hc : s.calls i = none) (m : Msg) (now : ℤ) :
    ∃ n u, run step s (.handle i m :: List.replicate n (.advance i now)) = some u ∧
      u.acc = (s.acc.handle now m).1 ∧ u.lock = none ∧
      u.calls i = some ⟨m, .answered (s.acc.handle now m).2⟩ := by
  set s₁ : State := { s with calls := Function.update s.calls i (some { msg := m }) } with hs₁
  have hfirst : step s (.handle i m) = some s₁ := by simp [step, hc, hs₁]
  obtain ⟨n, u, hr, hacc, hlock, hcall⟩ : Replies s₁ i m now (s.acc.dispatch now m) :=
    replies_entered hl (Function.update_self ..)
  set u' : State := u.put i ⟨m, .replied (s.acc.dispatch now m).2⟩
    (.answered (s.acc.handle now m).2) with hu'
  have hlast : step u (.advance i now) = some u' := by
    simp only [step, hcall, hlock, hacc]
    rfl
  refine ⟨n + 1, u', run_cons.2 ⟨s₁, hfirst, ?_⟩, hacc, hlock, Function.update_self ..⟩
  rw [List.replicate_succ', run_append]
  exact ⟨u, hr, run_cons.2 ⟨u', hlast, run_nil _⟩⟩

end alone

theorem alone_eq_handle_install :
    ∃ n u, run step atOne (.handle 0 ⟨0, 0, .install (oneVoter 2)⟩ ::
        List.replicate n (.advance 0 0)) = some u ∧ u.acc.installed = some (oneVoter 2) := by
  obtain ⟨n, u, hr, hacc, -⟩ := alone_eq_handle (s := atOne) (i := 0) rfl rfl
    ⟨0, 0, .install (oneVoter 2)⟩ 0
  exact ⟨n, u, hr, by rw [hacc]; decide⟩

end Gate

end Dstore

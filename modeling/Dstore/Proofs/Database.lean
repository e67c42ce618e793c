import Dstore.Database
import Dstore.Proofs.Gate

/-!
# Promises of an acceptor never go back, seeds apart

Between two retirements the copy in memory is what a restart would read. What an acceptor promised
on a register, with the purge floor standing for a register without a row, only rises; but a seed
does not look at the floor, and writes a register without a row at the ballot it brings.
-/

namespace Dstore

namespace Acceptor

variable {a a' : Acceptor} {m : Msg} {r : Reply} {now : ℤ} {reg : Bytes}

/-- No row accepts above its promise. -/
def RowsOk (a : Acceptor) : Prop := ∀ reg r, a.rows.get reg = some r → r.accepted ≤ r.promised

/-- No promise is taken back. -/
def Rises (a a' : Acceptor) : Prop := ∀ reg, a.promisedOn reg ≤ a'.promisedOn reg

theorem Rises.refl (a : Acceptor) : Rises a a := fun _ => le_rfl

theorem Rises.trans {a'' : Acceptor} (h : Rises a a') (h' : Rises a' a'') : Rises a a'' :=
  fun reg => (h reg).trans (h' reg)

theorem RowsOk.row_le (h : a.RowsOk) (reg : Bytes) : (a.row reg).accepted ≤ (a.row reg).promised := by
  unfold row
  rcases hr : a.rows.get reg with _ | r
  · exact le_rfl
  · exact h reg r hr

theorem row_promised_le (a : Acceptor) (reg : Bytes) : (a.row reg).promised ≤ a.promisedOn reg := by
  unfold row promisedOn
  cases a.rows.get reg with
  | none => exact bot_le
  | some r => exact le_rfl

theorem RowsOk.writeRow (h : a.RowsOk) {r : AcceptorRow} (hr : r.accepted ≤ r.promised) :
    (a.writeRow reg r).RowsOk := by
  intro reg' r' hget
  rw [Acceptor.writeRow, KV.get_set] at hget
  split_ifs at hget
  · exact Option.some.inj hget ▸ hr
  · exact h reg' r' hget

theorem rises_writeRow {r : AcceptorRow} (hr : a.promisedOn reg ≤ r.promised) :
    Rises a (a.writeRow reg r) := by
  intro reg'
  by_cases h : reg' = reg
  · rw [h, promisedOn_writeRow]
    exact hr
  · rw [promisedOn_writeRow_of_ne a r h]

theorem RowsOk.purge (h : a.RowsOk) (reg : Bytes) (b : Ballot) : (a.purge reg b).1.RowsOk := by
  rcases a.purge_cases reg b with heq | ⟨-, -, ⟨-, heq⟩ | heq⟩
  · rw [heq]
    exact h
  · intro reg' r hget
    rw [heq, KV.get_delete] at hget
    split_ifs at hget
    exact h reg' r hget
  · rw [heq]
    exact h.writeRow bot_le

/-- A purge leaves the promise in the floor. -/
theorem rises_purge (a : Acceptor) (reg : Bytes) (b : Ballot) : Rises a (a.purge reg b).1 := by
  rcases a.purge_cases reg b with heq | ⟨-, -, ⟨hp, heq⟩ | heq⟩
  · rw [heq]
    exact .refl a
  · intro reg'
    rw [heq]
    by_cases h : reg' = reg
    · -- the row is gone, and its promise is the floor now
      rw [h, hp]
      simp [promisedOn]
    · unfold promisedOn
      rw [KV.get_delete_of_ne _ h]
      cases a.rows.get reg' with
      | none => exact le_max_left _ _
      | some r => exact le_rfl
  · rw [heq]
    exact rises_writeRow le_rfl

/-- The row a seed leaves `reg` at, if it writes one: the last that brings a higher ballot. -/
def taken (a : Acceptor) (rows : List ScanRow) (reg : Bytes) : Option ScanRow :=
  (rows.filter fun sr => sr.reg = reg ∧ (a.row reg).accepted < sr.accepted).getLast?

theorem seedRow_eq (a : Acceptor) (m : KV Bytes AcceptorRow) (sr : ScanRow) : a.seedRow m sr =
    if (a.row sr.reg).accepted < sr.accepted then
      m.set sr.reg ⟨max (a.row sr.reg).promised sr.accepted, sr.accepted, sr.value, sr.hasValue⟩
    else m := by
  have hiff : (sr.accepted.isZero = true ∨ sr.accepted ≤ (a.row sr.reg).accepted) ↔
      ¬ (a.row sr.reg).accepted < sr.accepted := by
    rw [not_lt, Ballot.isZero_iff]
    exact ⟨fun h => h.elim (fun h => h ▸ bot_le) id, .inr⟩
  simp only [seedRow, hiff]
  split_ifs <;> rfl

theorem get_seed (a : Acceptor) (rows : List ScanRow) (reg : Bytes) :
    (a.seed rows).1.rows.get reg =
      match a.taken rows reg with
      | none => a.rows.get reg
      | some sr => some ⟨max (a.row reg).promised sr.accepted, sr.accepted, sr.value,
          sr.hasValue⟩ := by
  have hfold : ∀ (rows : List ScanRow), (rows.foldl a.seedRow a.rows).get reg =
      match a.taken rows reg with
      | none => a.rows.get reg
      | some sr => some ⟨max (a.row reg).promised sr.accepted, sr.accepted, sr.value,
          sr.hasValue⟩ := by
    intro rows
    induction rows using List.reverseRecOn with
    | nil => rfl
    | append_singleton rows sr ih =>
      rw [List.foldl_append, List.foldl_cons, List.foldl_nil, seedRow_eq]
      by_cases hreg : sr.reg = reg
      · by_cases hlt : (a.row reg).accepted < sr.accepted
        · simp [taken, hreg, hlt]
        · rw [if_neg (hreg ▸ hlt), ih]
          simp [taken, hlt]
      · have hne : reg ≠ sr.reg := fun h => hreg h.symm
        have hset : ∀ r, ((rows.foldl a.seedRow a.rows).set sr.reg r).get reg =
            (rows.foldl a.seedRow a.rows).get reg := fun r => KV.get_set_of_ne _ r hne
        rw [apply_ite (KV.get · reg), hset, ite_self, ih]
        simp [taken, hreg]
  exact hfold rows

/-- The rows that a seed adds are at the floor or above. -/
def SeedsAbove (a : Acceptor) (rows : List ScanRow) : Prop :=
  ∀ sr ∈ rows, a.rows.get sr.reg = none → ∀ l ∈ a.taken rows sr.reg, a.floor ≤ l.accepted

instance (a : Acceptor) (rows : List ScanRow) : Decidable (a.SeedsAbove rows) :=
  inferInstanceAs (Decidable (∀ sr ∈ rows, a.rows.get sr.reg = none →
    ∀ l ∈ a.taken rows sr.reg, a.floor ≤ l.accepted))

theorem RowsOk.seed (h : a.RowsOk) (rows : List ScanRow) : (a.seed rows).1.RowsOk := by
  intro reg r hget
  rw [get_seed] at hget
  split at hget
  · exact h reg r hget
  · cases hget
    exact le_max_right _ _

/-- A seed takes a promise back exactly where its row is below the floor. -/
theorem rises_seed_iff (a : Acceptor) (rows : List ScanRow) :
    Rises a (a.seed rows).1 ↔ a.SeedsAbove rows := by
  have hprom : ∀ reg, (a.seed rows).1.promisedOn reg =
      match a.taken rows reg with
      | none => a.promisedOn reg
      | some sr => max (a.row reg).promised sr.accepted := by
    intro reg
    rw [promisedOn, get_seed]
    cases a.taken rows reg <;> rfl
  constructor
  · intro h sr _ hnone l hl
    have hle := h sr.reg
    rw [hprom, Option.mem_def.1 hl] at hle
    have hrow : a.row sr.reg = {} := by simp [row, hnone]
    simpa [promisedOn, hnone, hrow] using hle
  · intro h reg
    rw [hprom]
    rcases ht : a.taken rows reg with _ | sr
    · exact le_rfl
    · rcases hr : a.rows.get reg with _ | r
      · -- the row is created by one of the rows seeded
        have hmem := List.mem_of_getLast? ht
        simp only [List.mem_filter, decide_eq_true_eq] at hmem
        obtain ⟨hin, rfl, -⟩ := hmem
        have hle := h sr hin hr sr ht
        simp only [promisedOn, hr]
        exact hle.trans (le_max_right _ _)
      · have hrow : a.row reg = r := by simp [row, hr]
        simp only [promisedOn, hr, hrow]
        exact le_max_left _ _

theorem install_of_not_retiring {v : View} (h : (!a.current v && a.retires v) = false) :
    (a.install v).rows = a.rows ∧ (a.install v).floor = a.floor := by
  rw [install_eq]
  rw [current] at h
  split_ifs with hc
  · exact ⟨rfl, rfl⟩
  · have hr : a.retires v = false := by simpa [hc] using h
    rw [putView_writeView, hr]
    exact ⟨rfl, rfl⟩

theorem rises_of_same (hrows : a'.rows = a.rows) (hfloor : a'.floor = a.floor) : Rises a a' := by
  intro reg
  rw [promisedOn, promisedOn, hrows, hfloor]

theorem Served.rowsOk (hs : Served a m a' r) (hret : a.retiring m = false) (h : a.RowsOk) :
    a'.RowsOk := by
  cases hs with
  | refused | conflict | read | scanned | marked => exact h
  | promised hm _ _ hlt =>
    exact h.writeRow ((h.row_le _).trans ((a.row_promised_le _).trans hlt.le))
  | accepted => exact h.writeRow le_rfl
  | installed hm =>
    rw [retiring, hm] at hret
    rw [RowsOk, (install_of_not_retiring hret).1]
    exact h
  | seeded => exact h.seed _
  | purged => exact h.purge _ _

/-- A request that may add rows adds them above the floor. -/
def Above (a : Acceptor) (m : Msg) : Prop :=
  match m.req with
  | .seed rows => a.SeedsAbove rows
  | _ => True

instance (a : Acceptor) (m : Msg) : Decidable (a.Above m) := by
  unfold Above
  split <;> infer_instance

theorem Served.rises (hs : Served a m a' r) (hret : a.retiring m = false)
    (hm : ∀ rows, m.req ≠ .seed rows) : Rises a a' := by
  cases hs with
  | refused | conflict | read | scanned => exact .refl a
  | promised _ _ _ hlt => exact rises_writeRow hlt.le
  | accepted _ _ _ hp => exact rises_writeRow hp
  | installed hv =>
    rw [retiring, hv] at hret
    obtain ⟨h1, h2⟩ := install_of_not_retiring hret
    exact rises_of_same h1 h2
  | marked => exact rises_of_same rfl rfl
  | seeded hs => exact absurd hs (hm _)
  | purged => exact rises_purge a _ _

theorem rises_dispatch_iff (hret : a.retiring m = false) :
    Rises a (a.dispatch now m).1 ↔ a.Above m := by
  by_cases hm : ∃ rows, m.req = .seed rows
  · obtain ⟨rows, hm⟩ := hm
    rw [dispatch, Above, hm]
    exact rises_seed_iff a rows
  · push Not at hm
    refine iff_of_true ((dispatch_served a now m).rises hret hm) ?_
    unfold Above
    split
    · exact absurd ‹_› (hm _)
    · trivial

theorem commit_seed (a : Acceptor) (rows : List ScanRow) : ∀ db : AcceptorDB,
    db.commit (rows.filterMap a.seedWrite) = { db with rows := rows.foldl a.seedRow db.rows } := by
  induction rows with
  | nil => exact fun _ => rfl
  | cons sr rows ih =>
    intro db
    rw [List.foldl_cons]
    by_cases h : sr.accepted.isZero = true ∨ sr.accepted ≤ (a.row sr.reg).accepted
    · rw [List.filterMap_cons_none (by rw [seedWrite, if_pos h]), ih, seedRow, if_pos h]
    · rw [List.filterMap_cons_some (by rw [seedWrite, if_neg h]), seedRow, if_neg h, max_def_lt]
      exact ih _

end Acceptor

namespace Server

open Machine

variable {s s' t u : Server} {act : Action} {as : List Action} {now : ℤ} {m : Msg} {self : NodeID}
  {db : AcceptorDB}

theorem commit_row {a : Acceptor} (ha : (openAcceptor self db).acc = a) {r : Reply} {a' : Acceptor}
    (hs : a.Served m a' r) (hi : ∀ v, m.req ≠ .install v) (hk : ∀ n, m.req ≠ .marker n)
    (hd : ∀ l, m.req ≠ .seed l) (hp : ∀ reg b, m.req ≠ .purge reg b) :
    (openAcceptor self (db.commit (a.rowBatch m.req r))).acc = a' := by
  subst ha
  cases hs with
  | refused | conflict => cases m.req <;> rfl
  | promised hm | accepted hm | read hm | scanned hm =>
    rw [hm]
    rfl
  | installed hm => exact absurd hm (hi _)
  | marked hm => exact absurd hm (hk _)
  | seeded hm => exact absurd hm (hd _)
  | purged hm => exact absurd hm (hp _ _)

/-- Opening after the purge's batch is the purge. -/
theorem commit_purge (self : NodeID) (db : AcceptorDB) (reg : Bytes) (b : Ballot) :
    (openAcceptor self (db.commit ((openAcceptor self db).acc.purgeBatch reg b))).acc =
      ((openAcceptor self db).acc.purge reg b).1 := by
  unfold Acceptor.purgeBatch Acceptor.purge
  by_cases hb : b.isZero = true
  · rw [if_pos hb, if_pos hb]
    rfl
  rw [if_neg hb, if_neg hb]
  rcases (openAcceptor self db).acc.rows.get reg with _ | r
  · rfl
  dsimp only
  by_cases h1 : r.accepted ≠ b
  · rw [if_pos h1, if_pos h1]
    rfl
  by_cases h2 : r.promised = b
  · rw [if_neg h1, if_neg h1, if_pos h2, if_pos h2, max_def_lt]
    split_ifs <;> rfl
  · rw [if_neg h1, if_neg h1, if_neg h2, if_neg h2]
    rfl

/-- A commit leaves in the database what the message makes of the acceptor. -/
theorem acc_commit (now : ℤ) (hret : (openAcceptor self db).acc.retiring m = false) :
    (openAcceptor self (db.commit ((openAcceptor self db).acc.batch now m))).acc =
      ((openAcceptor self db).acc.dispatch now m).1 := by
  generalize ha : (openAcceptor self db).acc = a at hret ⊢
  have hrow := commit_row ha (Acceptor.gate_served a now m)
  unfold Acceptor.batch Acceptor.dispatch
  cases hm : m.req with
  | install v =>
    rw [Acceptor.retiring, hm] at hret
    dsimp only at hret ⊢
    rw [Acceptor.install_eq, ← Acceptor.current, Acceptor.putView_writeView]
    unfold Acceptor.installBatch
    split_ifs with hc hr
    · exact ha
    · simp [hc, hr] at hret
    · rw [← ha]
      rfl
  | marker since =>
    rw [← ha]
    rfl
  | seed rows =>
    dsimp only
    rw [Acceptor.commit_seed, ← ha]
    rfl
  | purge reg b =>
    subst ha
    exact commit_purge self db reg b
  | prepare | accept | read | scan => simpa [hm] using hrow

/-- The server is what its database opens to. -/
def Coherent (s : Server) : Prop := s = openAcceptor s.self s.db

/-- What a step does to the acceptor: what its message does, or nothing. -/
theorem step_acc (h : s.Coherent) (hs : step s act = some s')
    (hret : ∀ m ∈ act.msg, s.acc.retiring m = false) : s'.Coherent ∧
      (act.msg = none ∧ s'.acc = s.acc ∨
        ∃ now, ∃ m ∈ act.msg, s'.acc = (s.acc.dispatch now m).1) := by
  rw [Coherent] at h
  cases act with
  | handle now m =>
    have hc := acc_commit now (h ▸ hret m rfl)
    rw [← h] at hc
    cases hs
    rw [← hc]
    exact ⟨rfl, .inr ⟨now, m, rfl, hc⟩⟩
  | killed now m =>
    have hc := acc_commit now (h ▸ hret m rfl)
    rw [← h] at hc
    cases hs
    exact ⟨rfl, .inr ⟨now, m, rfl, hc⟩⟩
  | restart =>
    cases hs
    rw [← h]
    exact ⟨h, .inl ⟨rfl, rfl⟩⟩

/-- The request does not retire the acceptor. -/
def Serving (s : Server) (act : Action) : Prop := ∀ m ∈ act.msg, s.acc.retiring m = false

def Above (s : Server) (act : Action) : Prop := ∀ m ∈ act.msg, s.acc.Above m

instance (s : Server) (act : Action) : Decidable (Serving s act) :=
  inferInstanceAs (Decidable (∀ m ∈ act.msg, s.acc.retiring m = false))

instance (s : Server) (act : Action) : Decidable (Above s act) :=
  inferInstanceAs (Decidable (∀ m ∈ act.msg, s.acc.Above m))

theorem step_rises_iff (h : s.Coherent) (hret : Serving s act) (hs : step s act = some s') :
    s.acc.Rises s'.acc ↔ Above s act := by
  rcases (step_acc h hs hret).2 with ⟨hmsg, heq⟩ | ⟨now, m, hm, heq⟩
  · rw [heq]
    exact iff_of_true (.refl _) fun m hm => absurd hm (by simp [hmsg])
  · rw [heq, Acceptor.rises_dispatch_iff (hret m hm)]
    exact ⟨fun ha m' hm' => Option.mem_unique hm hm' ▸ ha, fun ha => ha m hm⟩

theorem reached (h : s.Coherent) (h0 : s.acc.RowsOk) (hret : Along step Serving s as)
    (hr : run step s as = some t) : t.Coherent ∧ t.acc.RowsOk := by
  refine invariant_along (P := fun t => t.Coherent ∧ t.acc.RowsOk) ?_ as ⟨h, h0⟩ hret hr
  rintro s act s' ⟨hc, hok⟩ hret hs
  obtain ⟨hc', ⟨-, heq⟩ | ⟨now, m, hm, heq⟩⟩ := step_acc hc hs hret
  · exact ⟨hc', heq ▸ hok⟩
  · exact ⟨hc', heq ▸ (Acceptor.dispatch_served s.acc now m).rowsOk (hret m hm) hok⟩

theorem run_rises (h : s.Coherent) (hret : Along step Serving s as) (ha : Along step Above s as)
    (hr : run step s as = some t) : s.acc.Rises t.acc := by
  have hboth : Along step (fun s act => Serving s act ∧ Above s act) s as :=
    along_iff.2 fun pre act post u heq hu =>
      ⟨along_iff.1 hret pre act post u heq hu, along_iff.1 ha pre act post u heq hu⟩
  refine (invariant_along (P := fun t => t.Coherent ∧ s.acc.Rises t.acc) ?_ as
    ⟨h, .refl _⟩ hboth hr).2
  rintro u act u' ⟨hc, hrise⟩ ⟨hret, ha⟩ hs
  exact ⟨(step_acc hc hs hret).1, hrise.trans ((step_rises_iff hc hret hs).2 ha)⟩

/-- Along a run without retirement, whatever the restarts: no row has accepted above its promise,
and no promise ever goes back exactly if no seed creates a row below the floor. -/
theorem promises_rise_iff {as : List Action} (hs : s = openAcceptor self db)
    (h0 : db.rows = .empty) (hret : Along step Serving s as) :
    (∀ pre post t, as = pre ++ post → run step s pre = some t →
        ∀ reg r, t.db.rows.get reg = some r → r.accepted ≤ r.promised) ∧
      ((∀ pre mid post t u, as = pre ++ mid ++ post → run step s pre = some t →
          run step t mid = some u → ∀ reg, t.acc.promisedOn reg ≤ u.acc.promisedOn reg) ↔
        Along step Above s as) := by
  have hc : s.Coherent := by rw [hs]; rfl
  have hok : s.acc.RowsOk := by
    intro reg r hget
    rw [hs] at hget
    change db.rows.get reg = some r at hget
    rw [h0] at hget
    cases hget
  refine ⟨fun pre post t heq hr => ?_, fun hrise => along_iff.2 fun pre act post t heq hr => ?_,
    fun ha pre mid post t u heq hr hr' => ?_⟩
  · subst heq
    exact (reached hc hok (hret.append hr).1 hr).2
  · subst heq
    obtain ⟨t', ht'⟩ : ∃ t', step t act = some t' := by cases act <;> exact ⟨_, rfl⟩
    obtain ⟨h1, h2⟩ := hret.append hr
    refine (step_rises_iff (reached hc hok h1 hr).1 h2.1 ht').1 fun reg => ?_
    exact hrise pre [act] post t t' (by simp) hr (run_cons.2 ⟨t', ht', rfl⟩) reg
  · subst heq
    have hr'' := run_append.2 ⟨t, hr, hr'⟩
    obtain ⟨h1, h2⟩ := ((hret.append hr'').1).append hr
    exact run_rises (reached hc hok h1 hr).1 h2 ((ha.append hr'').1.append hr).2 hr'

namespace Lone

def view : View := { incarnation := 1, epoch := 1, version := 1, voters := [⟨1, 0⟩] }

/-- An acceptor that has its view and marker. -/
def server : Server := openAcceptor 1 { view := some view, marker := some 0 }

/-- A request at the epoch of the view. -/
def at1 (req : Req) : Action := .handle 0 ⟨1, 1, req⟩

/-- A row that a seed brings. -/
def row (c : ℕ) : ScanRow := ⟨[7], ⟨c, 1⟩, ⟨c, 1⟩, [9], true⟩

/-- A row is written and purged. -/
def purged : List Action :=
  [at1 (.prepare [7] ⟨5, 1⟩), at1 (.accept [7] ⟨5, 1⟩ [] true 0), .restart,
    at1 (.purge [7] ⟨5, 1⟩)]

/-- A seed that the process does not survive, and a restart. -/
def reseeded : List Action := [.killed 0 ⟨1, 1, .seed [row 6]⟩, .restart]

end Lone

/-- The purged register is seeded above the floor, and the process killed as it has committed. -/
theorem promises_rise_iff_reseeded :
    ∃ t ∈ run step Lone.server Lone.purged, ∃ u ∈ run step t Lone.reseeded,
      t.acc.promisedOn [7] ≤ u.acc.promisedOn [7] := by
  have hret : Along step Serving Lone.server (Lone.purged ++ Lone.reseeded ++ []) := by
    decide +kernel
  have habove : Along step Above Lone.server (Lone.purged ++ Lone.reseeded ++ []) := by
    decide +kernel
  exact ⟨_, rfl, _, rfl, (promises_rise_iff rfl rfl hret).2.2 habove _ _ [] _ _ rfl rfl rfl [7]⟩

/-- A seed below the floor: the promise on the purged register goes back from the fifth ballot to
the third, at which the acceptor takes a value again. -/
theorem seeded_below_floor :
    ∃ t ∈ run step Lone.server Lone.purged,
      t.acc.promisedOn [7] = ⟨5, 1⟩ ∧
        ∃ u ∈ run step t [Lone.at1 (.seed [Lone.row 3])], u.acc.promisedOn [7] = ⟨3, 1⟩ ∧
          (u.acc.accept 0 [7] ⟨4, 1⟩ [8] true 0).2 = .accepted := by
  decide +kernel

/-- The request of an action, and when it came. -/
def Action.call : Action → Option (ℤ × Msg)
  | .handle now m | .killed now m => some (now, m)
  | .restart => none

/-- An acceptor that is never down: what its messages make of it, one by one. -/
def serve (a : Acceptor) (calls : List (ℤ × Msg)) : Acceptor :=
  calls.foldl (fun a c => (a.dispatch c.1 c.2).1) a

theorem step_open (hret : Serving (openAcceptor self db) act) :
    ∃ db', step (openAcceptor self db) act = some (openAcceptor self db') ∧
      (openAcceptor self db').acc = serve (openAcceptor self db).acc act.call.toList := by
  cases act with
  | handle now m =>
    have hc := acc_commit now (hret m rfl)
    refine ⟨_, ?_, hc⟩
    rw [step, ← hc]
    rfl
  | killed now m => exact ⟨_, rfl, acc_commit now (hret m rfl)⟩
  | restart => exact ⟨db, rfl, rfl⟩

/-- Restarts and kills are not seen: along a run without retirement the server is, in memory and in
its database, the acceptor that served the same messages and was never down. -/
theorem run_refines_serve : ∀ (as : List Action) (db : AcceptorDB),
    Along step Serving (openAcceptor self db) as →
    ∃ db', run step (openAcceptor self db) as = some (openAcceptor self db') ∧
      (openAcceptor self db').acc = serve (openAcceptor self db).acc (as.filterMap Action.call)
  | [], db, _ => ⟨db, rfl, rfl⟩
  | act :: as, db, hret => by
    obtain ⟨db₁, hs, h₁⟩ := step_open hret.1
    obtain ⟨db', hr, h'⟩ := run_refines_serve as db₁ (hret.2 _ hs)
    refine ⟨db', run_cons.2 ⟨_, hs, hr⟩, ?_⟩
    rw [h', h₁, serve, serve, serve, ← List.foldl_append]
    cases act <;> rfl

theorem run_refines_serve_reseeded :
    ∃ db, run step Lone.server (Lone.purged ++ Lone.reseeded) = some (openAcceptor 1 db) ∧
      (openAcceptor 1 db).acc.promisedOn [7] = ⟨6, 1⟩ := by
  obtain ⟨db, hr, h⟩ := run_refines_serve (Lone.purged ++ Lone.reseeded) _
    (show Along step Serving Lone.server _ by decide +kernel)
  exact ⟨db, hr, h ▸ by decide +kernel⟩

end Server

end Dstore

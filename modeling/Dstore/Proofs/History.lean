import Dstore.System
import Dstore.Proofs.Serve

/-!
# What the log says about an acceptor

An acceptor that still has its database is *intact*: its rows are what its history left, with the
highest vote of each register unless a purge erased it, and its promise is at or above everything it
promised or voted for.
-/

namespace Dstore

namespace Event

/-- The event is an accept that was accepted. -/
def IsVote (e : Event) (w : NodeID) (reg : Bytes) (b : Ballot) (x : Bytes × Bool) : Prop :=
  e.node = w ∧ (∃ notAfter, e.msg.req = .accept reg b x.1 x.2 notAfter) ∧ e.ans.reply = .accepted

/-- The event is a prepare that was promised. -/
def IsPromise (e : Event) (w : NodeID) (reg : Bytes) (b : Ballot) (row : Row) : Prop :=
  e.node = w ∧ e.msg.req = .prepare reg b ∧
    e.ans.reply = .promise row.accepted row.value row.hasValue

/-- The event is a purge. -/
def IsPurge (e : Event) (w : NodeID) (reg : Bytes) (b : Ballot) : Prop :=
  e.node = w ∧ e.msg.req = .purge reg b

/-- What the event has promised. -/
def promised (e : Event) : Option (Bytes × Ballot) :=
  match e.msg.req, e.ans.reply with
  | .prepare reg b, .promise _ _ _ => some (reg, b)
  | _, _ => none

/-- The answer reports `row` as the acceptor's row of `reg`. -/
inductive Reports (e : Event) (reg : Bytes) (row : Row) : Prop
  | promise {b : Ballot} (hm : e.msg.req = .prepare reg b)
      (hr : e.ans.reply = .promise row.accepted row.value row.hasValue)
  | read {p : Ballot} (hm : e.msg.req = .read reg)
      (hr : e.ans.reply = .readReply row.accepted p row.value row.hasValue)
  | scan {rows : List ScanRow} {more : Bool} {next : Bytes} {p : Ballot}
      (hr : e.ans.reply = .scanReply rows more next)
      (hmem : ⟨reg, p, row.accepted, row.value, row.hasValue⟩ ∈ rows)

end Event

/-- The acceptor has accepted the value at this ballot. -/
def Voted (log : List Event) (w : NodeID) (reg : Bytes) (b : Ballot) (x : Bytes × Bool) : Prop :=
  ∃ e ∈ log, e.IsVote w reg b x

/-- The acceptor has promised the ballot and reported the row. -/
def Promised (log : List Event) (w : NodeID) (reg : Bytes) (b : Ballot) (row : Row) : Prop :=
  ∃ e ∈ log, e.IsPromise w reg b row

/-- The acceptor was told to purge the ballot. -/
def Purged (log : List Event) (w : NodeID) (reg : Bytes) (b : Ballot) : Prop :=
  ∃ e ∈ log, e.IsPurge w reg b

variable {log old : List Event} {w : NodeID} {reg : Bytes} {b : Ballot} {x : Bytes × Bool}
  {row : Row} {e : Event} {a a' : Acceptor} {m : Msg} {ans : Answer}

theorem voted_cons : Voted (e :: log) w reg b x ↔ e.IsVote w reg b x ∨ Voted log w reg b x := by
  simp [Voted]

theorem promised_cons :
    Promised (e :: log) w reg b row ↔ e.IsPromise w reg b row ∨ Promised log w reg b row := by
  simp [Promised]

theorem purged_cons : Purged (e :: log) w reg b ↔ e.IsPurge w reg b ∨ Purged log w reg b := by
  simp [Purged]

theorem Voted.mono (h : Voted log w reg b x) (hs : ∀ e ∈ log, e ∈ old) : Voted old w reg b x :=
  h.imp fun e he => ⟨hs e he.1, he.2⟩

theorem Promised.mono (h : Promised log w reg b row) (hs : ∀ e ∈ log, e ∈ old) :
    Promised old w reg b row :=
  h.imp fun e he => ⟨hs e he.1, he.2⟩

/-- What an accept carries. -/
def Req.carried : Req → Option (Bytes × Ballot × Bytes × Bool)
  | .accept reg b value hasValue _ => some (reg, b, value, hasValue)
  | _ => none

theorem Req.carried_eq_some {r : Req} : r.carried = some (reg, b, x) ↔
    ∃ notAfter, r = .accept reg b x.1 x.2 notAfter := by
  cases r <;> simp [carried, Prod.ext_iff]

instance : Decidable (e.IsVote w reg b x) :=
  decidable_of_iff (e.node = w ∧ e.msg.req.carried = some (reg, b, x) ∧ e.ans.reply = .accepted)
    (by rw [Event.IsVote, Req.carried_eq_some])

instance : Decidable (Voted log w reg b x) := List.decidableBEx _ _

/-- `row` is what the history of `w` left of `reg`: its highest vote, or nothing where there was
none or a purge erased it. -/
structure RowOk (log : List Event) (w : NodeID) (reg : Bytes) (row : Row) : Prop where
  vote : row.accepted ≠ ⊥ → Voted log w reg row.accepted (row.value, row.hasValue)
  absent : row.accepted = ⊥ → row.value = [] ∧ row.hasValue = false
  high : ∀ b x, Voted log w reg b x → b ≤ row.accepted ∨
    row.accepted = ⊥ ∧ ∃ d y, b ≤ d ∧ Voted log w reg d y ∧ Purged log w reg d

/-- The acceptor still has the database its history left. -/
structure Intact (log : List Event) (w : NodeID) (a : Acceptor) : Prop where
  row : ∀ reg, RowOk log w reg (a.row reg).toRow
  accepted_le : ∀ reg, (a.row reg).accepted ≤ a.promisedOn reg
  vote_le : ∀ reg b x, Voted log w reg b x → b ≤ a.promisedOn reg
  promise_le : ∀ reg b r, Promised log w reg b r → b ≤ a.promisedOn reg

/-- An answer agrees with what the acceptor has answered before. -/
structure EventOk (old : List Event) (e : Event) : Prop where
  report : ∀ reg row, e.Reports reg row → RowOk old e.node reg row
  promise : ∀ w reg p row, e.IsPromise w reg p row →
    row.accepted < p ∧ ∀ b x, Voted old w reg b x → b < p
  vote : ∀ w reg b x, e.IsVote w reg b x → b ≠ ⊥ ∧ ∀ p row, Promised old w reg p row → p ≤ b

/-- Every answer of the voters `ids` is right about the history before it. -/
def Lawful (ids : List NodeID) : List Event → Prop
  | [] => True
  | e :: old => (e.node ∈ ids → EventOk old e) ∧ Lawful ids old

theorem RowOk.cons (h : RowOk log w reg row) (hv : ∀ b x, ¬ e.IsVote w reg b x) :
    RowOk (e :: log) w reg row where
  vote hne := voted_cons.2 (.inr (h.vote hne))
  absent := h.absent
  high b x hb := by
    rcases h.high b x ((voted_cons.1 hb).resolve_left (hv b x)) with hle | ⟨hz, d, y, hd, h1, h2⟩
    · exact .inl hle
    · exact .inr ⟨hz, d, y, hd, voted_cons.2 (.inr h1), purged_cons.2 (.inr h2)⟩

theorem Intact.cons (h : Intact log w a) (hv : ∀ reg b x, ¬ e.IsVote w reg b x)
    (hp : ∀ reg b row, ¬ e.IsPromise w reg b row) : Intact (e :: log) w a where
  row reg := (h.row reg).cons (hv reg)
  accepted_le := h.accepted_le
  vote_le reg b x hb := h.vote_le reg b x ((voted_cons.1 hb).resolve_left (hv reg b x))
  promise_le reg b r hb := h.promise_le reg b r ((promised_cons.1 hb).resolve_left (hp reg b r))

theorem Intact.cons_of_ne (h : Intact log w a) (hne : e.node ≠ w) : Intact (e :: log) w a :=
  h.cons (fun _ _ _ hv => hne hv.1) fun _ _ _ hp => hne hp.1

theorem Intact.congr (h : Intact log w a) (hr : a'.rows = a.rows) (hf : a'.floor = a.floor) :
    Intact log w a' := by
  have h1 : ∀ reg, a'.row reg = a.row reg := fun reg => by simp [Acceptor.row, hr]
  have h2 : ∀ reg, a'.promisedOn reg = a.promisedOn reg := fun reg => by
    simp [Acceptor.promisedOn, hr, hf]
  exact ⟨fun reg => h1 reg ▸ h.row reg, fun reg => by rw [h1, h2]; exact h.accepted_le reg,
    fun reg b x hb => h2 reg ▸ h.vote_le reg b x hb,
    fun reg b r hb => h2 reg ▸ h.promise_le reg b r hb⟩

/-- A promise keeps rows and log in step. -/
theorem Intact.promise (h : Intact log w a) (hlt : a.promisedOn reg < b)
    (he : e.IsPromise w reg b row) :
    Intact (e :: log) w (a.writeRow reg { a.row reg with promised := b }) := by
  have hv : ∀ reg b x, ¬ e.IsVote w reg b x := fun reg b x hv => by
    have := he.2.2.symm.trans hv.2.2
    simp at this
  have hp : ∀ reg' b' row', e.IsPromise w reg' b' row' → reg' = reg ∧ b' = b := by
    intro reg' b' row' h'
    have := h'.2.1.symm.trans he.2.1
    simpa using this
  have hup : ∀ reg', a.promisedOn reg' ≤
      (a.writeRow reg { a.row reg with promised := b }).promisedOn reg' := by
    intro reg'
    by_cases hreg : reg' = reg
    · subst hreg
      simpa using hlt.le
    · rw [Acceptor.promisedOn_writeRow_of_ne _ _ hreg]
  have hrow : ∀ reg', ((a.writeRow reg { a.row reg with promised := b }).row reg').toRow =
      (a.row reg').toRow := by
    intro reg'
    by_cases hreg : reg' = reg
    · subst hreg
      simp [AcceptorRow.toRow]
    · rw [Acceptor.row_writeRow_of_ne _ _ hreg]
  refine ⟨fun reg' => ?_, fun reg' => ?_, fun reg' b' x' hb' => ?_, fun reg' b' r' hb' => ?_⟩
  · rw [hrow]
    exact (h.row reg').cons (hv reg')
  · have h1 : ((a.writeRow reg { a.row reg with promised := b }).row reg').accepted =
        (a.row reg').accepted := congrArg Row.accepted (hrow reg')
    exact h1 ▸ (h.accepted_le reg').trans (hup reg')
  · exact (h.vote_le reg' b' x' ((voted_cons.1 hb').resolve_left (hv _ _ _))).trans (hup reg')
  · rcases promised_cons.1 hb' with hb' | hb'
    · obtain ⟨rfl, rfl⟩ := hp _ _ _ hb'
      simp
    · exact (h.promise_le reg' b' r' hb').trans (hup reg')

theorem Intact.accept (h : Intact log w a) (hle : a.promisedOn reg ≤ b) (hb : b ≠ ⊥)
    (he : e.IsVote w reg b x) :
    Intact (e :: log) w (a.writeRow reg ⟨b, b, x.1, x.2⟩) := by
  have hv : ∀ reg' b' x', e.IsVote w reg' b' x' → reg' = reg ∧ b' = b ∧ x' = x := by
    rintro reg' b' x' ⟨-, ⟨n', hn'⟩, -⟩
    obtain ⟨-, ⟨n, hn⟩, -⟩ := he
    have := hn'.symm.trans hn
    simp only [Req.accept.injEq] at this
    exact ⟨this.1, this.2.1, Prod.ext this.2.2.1 this.2.2.2.1⟩
  have hp : ∀ reg b row, ¬ e.IsPromise w reg b row := fun reg b row hp => by
    have := hp.2.2.symm.trans he.2.2
    simp at this
  refine ⟨fun reg' => ?_, fun reg' => ?_, fun reg' b' x' hb' => ?_, fun reg' b' r' hb' => ?_⟩
  · by_cases hreg : reg' = reg
    · subst hreg
      simp only [Acceptor.row_writeRow, AcceptorRow.toRow]
      refine ⟨fun _ => voted_cons.2 (.inl he), fun hz => absurd hz hb, fun b' x' hb' => .inl ?_⟩
      rcases voted_cons.1 hb' with hb' | hb'
      · exact (hv _ _ _ hb').2.1.le
      · exact (h.vote_le _ _ _ hb').trans hle
    · rw [Acceptor.row_writeRow_of_ne _ _ hreg]
      exact (h.row reg').cons fun b' x' hx => hreg (hv _ _ _ hx).1
  · by_cases hreg : reg' = reg
    · subst hreg
      simp
    · rw [Acceptor.row_writeRow_of_ne _ _ hreg, Acceptor.promisedOn_writeRow_of_ne _ _ hreg]
      exact h.accepted_le reg'
  · by_cases hreg : reg' = reg
    · subst hreg
      rw [Acceptor.promisedOn_writeRow]
      rcases voted_cons.1 hb' with hb' | hb'
      · exact (hv _ _ _ hb').2.1.le
      · exact (h.vote_le _ _ _ hb').trans hle
    · rw [Acceptor.promisedOn_writeRow_of_ne _ _ hreg]
      exact h.vote_le _ _ _ ((voted_cons.1 hb').resolve_left fun hx => hreg (hv _ _ _ hx).1)
  · have hb'' := h.promise_le _ _ _ ((promised_cons.1 hb').resolve_left (hp _ _ _))
    by_cases hreg : reg' = reg
    · subst hreg
      rw [Acceptor.promisedOn_writeRow]
      exact hb''.trans hle
    · rw [Acceptor.promisedOn_writeRow_of_ne _ _ hreg]
      exact hb''

/-- So does a purge, as its floor keeps the promise. -/
theorem Intact.purge (h : Intact log w a) (he : e.IsPurge w reg b)
    (hv : ∀ reg b x, ¬ e.IsVote w reg b x) (hp : ∀ reg b row, ¬ e.IsPromise w reg b row) :
    Intact (e :: log) w (a.purge reg b).1 := by
  rcases a.purge_cases reg b with hc | ⟨hb, hacc, hc⟩
  · rw [hc]
    exact h.cons hv hp
  have hi := h.cons hv hp
  have herased : RowOk (e :: log) w reg {} := by
    refine ⟨fun hne => absurd rfl hne, fun _ => ⟨rfl, rfl⟩, fun b' x' hb' => .inr ⟨rfl, ?_⟩⟩
    refine ⟨b, ((a.row reg).value, (a.row reg).hasValue), ?_, ?_, purged_cons.2 (.inl he)⟩
    · rcases (hi.row reg).high b' x' hb' with hle | ⟨hz, -⟩
      · exact hle.trans hacc.le
      · exact absurd (hacc.symm.trans hz) hb
    · have := (hi.row reg).vote (by simpa [AcceptorRow.toRow, hacc] using hb)
      rwa [AcceptorRow.toRow, hacc] at this
  have hmain : ∀ a' : Acceptor, (a'.row reg).toRow = {} →
      (∀ reg', reg' ≠ reg → a'.row reg' = a.row reg') →
      (∀ reg', a.promisedOn reg' ≤ a'.promisedOn reg') → Intact (e :: log) w a' := by
    intro a' h1 h2 h3
    refine ⟨fun reg' => ?_, fun reg' => ?_, fun reg' b' x' hb' => ?_, fun reg' b' r' hb' => ?_⟩
    · by_cases hreg : reg' = reg
      · rw [hreg, h1]
        exact herased
      · exact h2 reg' hreg ▸ hi.row reg'
    · by_cases hreg : reg' = reg
      · have h4 : (a'.row reg').accepted = ⊥ := by
          rw [hreg]
          exact congrArg Row.accepted h1
        exact h4 ▸ bot_le
      · exact h2 reg' hreg ▸ (hi.accepted_le reg').trans (h3 reg')
    · exact (hi.vote_le _ _ _ hb').trans (h3 reg')
    · exact (hi.promise_le _ _ _ hb').trans (h3 reg')
  rcases hc with ⟨hprom, hc⟩ | hc
  · rw [hc]
    refine hmain _ (by simp [Acceptor.row, AcceptorRow.toRow]) (fun reg' hreg => ?_) fun reg' => ?_
    · simp [Acceptor.row, KV.get_delete_of_ne _ hreg]
    · by_cases hreg : reg' = reg
      · subst hreg
        rw [hprom]
        simp [Acceptor.promisedOn]
      · simp only [Acceptor.promisedOn, KV.get_delete_of_ne _ hreg]
        split
        · exact le_rfl
        · exact le_max_left _ _
  · rw [hc]
    refine hmain _ (by simp [AcceptorRow.toRow]) (fun reg' hreg => ?_) fun reg' => ?_
    · exact Acceptor.row_writeRow_of_ne _ _ hreg
    · by_cases hreg : reg' = reg
      · subst hreg
        simp
      · rw [Acceptor.promisedOn_writeRow_of_ne _ _ hreg]

theorem EventOk.of_silent (hv : ∀ w reg b x, ¬ e.IsVote w reg b x)
    (hp : ∀ w reg b row, ¬ e.IsPromise w reg b row) (hr : ∀ reg row, ¬ e.Reports reg row) :
    EventOk old e :=
  ⟨fun reg row h => absurd h (hr reg row), fun w reg p row h => absurd h (hp w reg p row),
    fun w reg b x h => absurd h (hv w reg b x)⟩

section served

variable (h : Intact log w a)
include h

/-- A promise that is answered. -/
theorem Intact.served_promised {p : Ballot} (hm : m.req = .prepare reg p)
    (hlt : a.promisedOn reg < p)
    (hr : ans.reply = .promise (a.row reg).accepted (a.row reg).value (a.row reg).hasValue) :
    Intact (⟨w, m, ans⟩ :: log) w (a.writeRow reg { a.row reg with promised := p }) ∧
      EventOk log ⟨w, m, ans⟩ := by
  have hprom : Event.IsPromise ⟨w, m, ans⟩ w reg p (a.row reg).toRow := ⟨rfl, hm, hr⟩
  refine ⟨h.promise hlt hprom, ?_, ?_, ?_⟩
  · rintro reg' row' (⟨hm', hr'⟩ | ⟨-, hr'⟩ | ⟨hr', -⟩)
    · have hreg := hm'.symm.trans hm
      have hrow := hr'.symm.trans hr
      simp only [Req.prepare.injEq, Reply.promise.injEq] at hreg hrow
      obtain ⟨rfl, -⟩ := hreg
      have : row' = (a.row reg').toRow := by
        rcases row' with ⟨acc, val, has⟩
        simp only at hrow
        simp [AcceptorRow.toRow, hrow]
      exact this ▸ h.row reg'
    · exact absurd (hr'.symm.trans hr) (by simp)
    · exact absurd (hr'.symm.trans hr) (by simp)
  · rintro w' reg' p' row' ⟨rfl, hm', hr'⟩
    have hreg := hm'.symm.trans hm
    have hrow := hr'.symm.trans hr
    simp only [Req.prepare.injEq, Reply.promise.injEq] at hreg hrow
    obtain ⟨rfl, rfl⟩ := hreg
    exact ⟨hrow.1 ▸ (h.accepted_le reg').trans_lt hlt,
      fun b x hb => (h.vote_le reg' b x hb).trans_lt hlt⟩
  · rintro w' reg' b' x' ⟨-, -, hr'⟩
    exact absurd (hr'.symm.trans hr) (by simp)

theorem Intact.served_accepted {value : Bytes} {hasValue : Bool} {notAfter : ℤ}
    (hm : m.req = .accept reg b value hasValue notAfter) (hb : b ≠ ⊥)
    (hle : a.promisedOn reg ≤ b) (hr : ans.reply = .accepted) :
    Intact (⟨w, m, ans⟩ :: log) w (a.writeRow reg ⟨b, b, value, hasValue⟩) ∧
      EventOk log ⟨w, m, ans⟩ := by
  have hvote : Event.IsVote ⟨w, m, ans⟩ w reg b (value, hasValue) := ⟨rfl, ⟨notAfter, hm⟩, hr⟩
  refine ⟨h.accept hle hb hvote, ?_, ?_, ?_⟩
  · rintro reg' row' (⟨-, hr'⟩ | ⟨-, hr'⟩ | ⟨hr', -⟩) <;>
      exact absurd (hr'.symm.trans hr) (by simp)
  · rintro w' reg' p' row' ⟨-, -, hr'⟩
    exact absurd (hr'.symm.trans hr) (by simp)
  · rintro w' reg' b' x' ⟨rfl, ⟨n', hm'⟩, -⟩
    have hreg := hm'.symm.trans hm
    simp only [Req.accept.injEq] at hreg
    obtain ⟨rfl, rfl, -⟩ := hreg
    exact ⟨hb, fun p row hp => (h.promise_le _ _ _ hp).trans hle⟩

/-- Whatever an acceptor serves keeps rows and log in step. -/
theorem Intact.served (hs : a.Served m a' ans.reply)
    (hi : ∀ v, m.req = .install v → v.isVoter a.self) (hseed : ∀ rows, m.req ≠ .seed rows) :
    Intact (⟨w, m, ans⟩ :: log) w a' ∧ EventOk log ⟨w, m, ans⟩ := by
  have hquiet : (∀ acc val has, ans.reply ≠ .promise acc val has) → ans.reply ≠ .accepted →
      (∀ w' reg b x, ¬ Event.IsVote ⟨w, m, ans⟩ w' reg b x) ∧
        ∀ w' reg b row, ¬ Event.IsPromise ⟨w, m, ans⟩ w' reg b row := fun h1 h2 =>
    ⟨fun _ _ _ _ hv => h2 hv.2.2, fun _ _ _ _ hp => h1 _ _ _ hp.2.2⟩
  have hsilent : (∀ acc val has, ans.reply ≠ .promise acc val has) → ans.reply ≠ .accepted →
      (∀ acc p val has, ans.reply ≠ .readReply acc p val has) →
      (∀ rows more next, ans.reply ≠ .scanReply rows more next) → EventOk log ⟨w, m, ans⟩ := by
    intro h1 h2 h3 h4
    refine .of_silent (hquiet h1 h2).1 (hquiet h1 h2).2 ?_
    rintro reg row (⟨-, hr⟩ | ⟨-, hr⟩ | ⟨hr, -⟩)
    · exact h1 _ _ _ hr
    · exact h3 _ _ _ _ hr
    · exact h4 _ _ _ hr
  generalize hr : ans.reply = r at hs
  rw [hr] at hquiet hsilent
  cases hs with
  | refused code text v =>
    obtain ⟨h1, h2⟩ := hquiet (by simp) (by simp)
    exact ⟨h.cons (h1 w) (h2 w), hsilent (by simp) (by simp) (by simp) (by simp)⟩
  | conflict b =>
    obtain ⟨h1, h2⟩ := hquiet (by simp) (by simp)
    exact ⟨h.cons (h1 w) (h2 w), hsilent (by simp) (by simp) (by simp) (by simp)⟩
  | promised hm he hf hlt => exact h.served_promised hm hlt hr
  | accepted hm he hb hp ha => exact h.served_accepted hm hb hp hr
  | @read reg hm he hf =>
    obtain ⟨h1, h2⟩ := hquiet (by simp) (by simp)
    refine ⟨h.cons (h1 w) (h2 w), ?_, fun _ _ _ _ hp => absurd hp (h2 _ _ _ _),
      fun _ _ _ _ hv => absurd hv (h1 _ _ _ _)⟩
    rintro reg' row' (⟨-, hr'⟩ | ⟨hm', hr'⟩ | ⟨hr', -⟩)
    · exact absurd (hr'.symm.trans hr) (by simp)
    · have hreg := hm'.symm.trans hm
      have hrow := hr'.symm.trans hr
      simp only [Req.read.injEq, Reply.readReply.injEq] at hreg hrow
      subst hreg
      have : row' = (a.row reg').toRow := by
        rcases row' with ⟨acc, val, has⟩
        simp only at hrow
        simp [AcceptorRow.toRow, hrow]
      exact this ▸ h.row reg'
    · exact absurd (hr'.symm.trans hr) (by simp)
  | @scanned pre after limit hm he hf =>
    obtain ⟨rows, more, next, hscan, hrows⟩ := Acceptor.scan_reply pre after limit hf
    rw [hscan] at hr hquiet
    obtain ⟨h1, h2⟩ := hquiet (by simp) (by simp)
    refine ⟨h.cons (h1 w) (h2 w), ?_, fun _ _ _ _ hp => absurd hp (h2 _ _ _ _),
      fun _ _ _ _ hv => absurd hv (h1 _ _ _ _)⟩
    rintro reg' row' (⟨-, hr'⟩ | ⟨-, hr'⟩ | ⟨hr', hmem⟩)
    · exact absurd (hr'.symm.trans hr) (by simp)
    · exact absurd (hr'.symm.trans hr) (by simp)
    · have hrow := hr'.symm.trans hr
      simp only [Reply.scanReply.injEq] at hrow
      obtain ⟨-, hrow⟩ := hrows _ (hrow.1 ▸ hmem)
      have : row' = (a.row reg').toRow := by
        simp only at hrow
        simp [AcceptorRow.toRow, hrow]
      exact this ▸ h.row reg'
  | @installed v hm =>
    obtain ⟨h1, h2⟩ := hquiet (by simp) (by simp)
    obtain ⟨hrows, hfloor, -⟩ := Acceptor.install_of_isVoter (hi v hm)
    exact ⟨(h.cons (h1 w) (h2 w)).congr hrows hfloor,
      hsilent (by simp) (by simp) (by simp) (by simp)⟩
  | marked hm =>
    obtain ⟨h1, h2⟩ := hquiet (by simp) (by simp)
    exact ⟨(h.cons (h1 w) (h2 w)).congr rfl rfl, hsilent (by simp) (by simp) (by simp) (by simp)⟩
  | seeded hm => exact absurd hm (hseed _)
  | @purged reg b hm =>
    rcases a.purge_reply reg b with hk | ⟨code, text, v, hk⟩ <;> rw [hk] at hquiet hsilent
    all_goals
      obtain ⟨h1, h2⟩ := hquiet (by simp) (by simp)
      exact ⟨h.purge ⟨rfl, hm⟩ (h1 w) (h2 w), hsilent (by simp) (by simp) (by simp) (by simp)⟩

end served

section lawful

variable {ids : List NodeID} {p : Ballot}

theorem Lawful.promise_row (hw : w ∈ ids) :
    ∀ {log : List Event}, Lawful ids log → Promised log w reg p row → row.accepted < p ∧
      (row.accepted ≠ ⊥ → Voted log w reg row.accepted (row.value, row.hasValue)) ∧
      (row.accepted = ⊥ → row.value = [] ∧ row.hasValue = false)
  | [], _, ⟨_, he, _⟩ => by simp at he
  | e :: old, hl, hp => by
    rcases promised_cons.1 hp with hp | hp
    · have hok := hl.1 (hp.1 ▸ hw)
      have hrow := hok.report reg row (.promise hp.2.1 hp.2.2)
      rw [hp.1] at hrow
      exact ⟨(hok.promise w reg p row hp).1, fun hne => voted_cons.2 (.inr (hrow.vote hne)),
        hrow.absent⟩
    · obtain ⟨h1, h2, h3⟩ := promise_row hw hl.2 hp
      exact ⟨h1, fun hne => voted_cons.2 (.inr (h2 hne)), h3⟩

/-- A vote below a promise of the same acceptor is covered by the row the promise reported,
unless a purge erased it. -/
theorem Lawful.vote_promise (hw : w ∈ ids) (hlt : b < p) :
    ∀ {log : List Event}, Lawful ids log → Voted log w reg b x → Promised log w reg p row →
      b ≤ row.accepted ∨ row.accepted = ⊥ ∧
        ∃ d y, b ≤ d ∧ d < p ∧ Voted log w reg d y ∧ Purged log w reg d
  | [], _, ⟨_, he, _⟩, _ => by simp at he
  | e :: old, hl, hv, hp => by
    rcases voted_cons.1 hv with hv | hv <;> rcases promised_cons.1 hp with hp | hp
    · exact absurd (hv.2.2.symm.trans hp.2.2) (by simp)
    · have hok := hl.1 (hv.1 ▸ hw)
      exact absurd ((hok.vote w reg b x hv).2 p row hp) (not_le.2 hlt)
    · have hok := hl.1 (hp.1 ▸ hw)
      have hrow := hok.report reg row (.promise hp.2.1 hp.2.2)
      rw [hp.1] at hrow
      rcases hrow.high b x hv with hle | ⟨hz, d, y, hd, h1, h2⟩
      · exact .inl hle
      · exact .inr ⟨hz, d, y, hd, (hok.promise w reg p row hp).2 d y h1, voted_cons.2 (.inr h1),
          purged_cons.2 (.inr h2)⟩
    · rcases vote_promise hw hlt hl.2 hv hp with hle | ⟨hz, d, y, hd, hdp, h1, h2⟩
      · exact .inl hle
      · exact .inr ⟨hz, d, y, hd, hdp, voted_cons.2 (.inr h1), purged_cons.2 (.inr h2)⟩

theorem Lawful.report_voted (hw : w ∈ ids) :
    ∀ {log : List Event} {e : Event}, Lawful ids log → e ∈ log → e.node = w → e.Reports reg row →
      row.accepted ≠ ⊥ → Voted log w reg row.accepted (row.value, row.hasValue)
  | [], _, _, he, _, _, _ => by simp at he
  | e' :: old, e, hl, he, hn, hr, hne => by
    rcases List.mem_cons.1 he with rfl | he
    · have hrow := (hl.1 (hn ▸ hw)).report reg row hr
      rw [hn] at hrow
      exact voted_cons.2 (.inr (hrow.vote hne))
    · exact voted_cons.2 (.inr (report_voted hw hl.2 he hn hr hne))

end lawful

end Dstore

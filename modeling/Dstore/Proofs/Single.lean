import Dstore.Single
import Dstore.Proofs.History

/-!
# One voter to three

Where the coordinator is the single voter itself, has the new view installed when it reads its
rows, and every seed is applied, each new voter that can answer holds what the single voter
accepted before. Where the coordinator is another node, it copies that node's rows.
-/

namespace Dstore

namespace Acceptor

variable {a a' : Acceptor} {m : Msg} {r : Reply} {reg : Bytes}

/-- Traffic takes no accepted ballot back, and leaves view and marker alone. -/
theorem Served.traffic (h : a.Served m a' r) (ht : Single.isTraffic m.req) :
    (∀ reg, (a.row reg).accepted ≤ (a'.row reg).accepted) ∧ a'.self = a.self ∧
      a'.installed = a.installed ∧ a'.marker = a.marker ∧ a'.retired = a.retired := by
  cases h with
  | @promised reg b hm he hf hlt =>
    refine ⟨fun reg' => ?_, rfl, rfl, rfl, rfl⟩
    by_cases hreg : reg' = reg
    · simp [hreg]
    · rw [row_writeRow_of_ne _ _ hreg]
  | @accepted reg b value hasValue notAfter hm he hb hp ha =>
    refine ⟨fun reg' => ?_, rfl, rfl, rfl, rfl⟩
    by_cases hreg : reg' = reg
    · simpa [hreg] using ha
    · rw [row_writeRow_of_ne _ _ hreg]
  | installed hm => simp [hm, Single.isTraffic] at ht
  | marked hm => simp [hm, Single.isTraffic] at ht
  | seeded hm => simp [hm, Single.isTraffic] at ht
  | purged hm => simp [hm, Single.isTraffic] at ht
  | _ => exact ⟨fun _ => le_rfl, rfl, rfl, rfl, rfl⟩

/-- A vote is one at the installed view's epoch. -/
theorem Served.vote {b : Ballot} {value : Bytes} {hasValue : Bool} {notAfter : ℤ}
    (h : a.Served m a' .accepted) (hm : m.req = .accept reg b value hasValue notAfter) :
    a.AtEpoch m ∧ (a'.row reg).accepted = b := by
  generalize hr : Reply.accepted = r at h
  cases h with
  | accepted hm' he =>
    have heq := hm'.symm.trans hm
    simp only [Req.accept.injEq] at heq
    obtain ⟨rfl, rfl, -⟩ := heq
    exact ⟨he, by simp⟩
  | scanned hm' => rw [hm] at hm'; cases hm'
  | purged hm' => rw [hm] at hm'; cases hm'
  | _ => cases hr

section seed

variable (a)

theorem get_seedRow_of_ne (rows : KV Bytes AcceptorRow) {sr : ScanRow} (h : reg ≠ sr.reg) :
    (a.seedRow rows sr).get reg = rows.get reg := by
  simp only [seedRow]
  split_ifs
  · rfl
  · exact KV.get_set_of_ne _ _ h

theorem get_foldl_seedRow_of_notMem : ∀ (L : List ScanRow) (rows : KV Bytes AcceptorRow),
    reg ∉ L.map ScanRow.reg → (L.foldl a.seedRow rows).get reg = rows.get reg
  | [], _, _ => rfl
  | sr :: L, rows, h => by
    simp only [List.map_cons, List.mem_cons, not_or] at h
    rw [List.foldl_cons, get_foldl_seedRow_of_notMem L _ h.2, get_seedRow_of_ne a _ h.1]

/-- A seed takes nothing back, and brings its rows. -/
theorem seed_accepted {L : List ScanRow} (hnd : (L.map ScanRow.reg).Nodup) :
    (∀ reg, (a.row reg).accepted ≤ ((a.seed L).1.row reg).accepted) ∧
      ∀ sr ∈ L, sr.accepted ≤ ((a.seed L).1.row sr.reg).accepted := by
  -- what a register's row is after the batch, by its one entry in it
  have hmem : ∀ (L : List ScanRow) (rows : KV Bytes AcceptorRow), (L.map ScanRow.reg).Nodup →
      ∀ sr ∈ L, rows.get sr.reg = a.rows.get sr.reg →
        (L.foldl a.seedRow rows).get sr.reg = (a.seedRow a.rows sr).get sr.reg := by
    intro L
    induction L with
    | nil => simp
    | cons sr' L ih =>
      intro rows hnd sr hsr hget
      rw [List.map_cons, List.nodup_cons] at hnd
      rw [List.foldl_cons]
      rcases List.mem_cons.1 hsr with rfl | hsr
      · rw [get_foldl_seedRow_of_notMem a _ _ hnd.1]
        simp only [seedRow]
        split_ifs
        · exact hget
        · simp
      · have hne : sr.reg ≠ sr'.reg := fun he => hnd.1 (he ▸ List.mem_map_of_mem hsr)
        exact ih _ hnd.2 sr hsr ((get_seedRow_of_ne a _ hne).trans hget)
  have hrow : ∀ sr ∈ L, (a.row sr.reg).accepted ≤ ((a.seed L).1.row sr.reg).accepted ∧
      sr.accepted ≤ ((a.seed L).1.row sr.reg).accepted := by
    intro sr hsr
    have hget : (a.seed L).1.row sr.reg = ((a.seedRow a.rows sr).get sr.reg).getD {} := by
      rw [row, seed, hmem L a.rows hnd sr hsr rfl]
    rw [hget]
    simp only [seedRow]
    split_ifs with hc
    · refine ⟨le_rfl, ?_⟩
      rcases hc with hz | hle
      · rw [Ballot.isZero_iff.1 hz]
        exact bot_le
      · exact hle
    · push Not at hc
      rw [KV.get_set_self]
      exact ⟨hc.2.le, le_rfl⟩
  refine ⟨fun reg => ?_, fun sr hsr => (hrow sr hsr).2⟩
  by_cases hreg : reg ∈ L.map ScanRow.reg
  · obtain ⟨sr, hsr, rfl⟩ := List.mem_map.1 hreg
    exact (hrow sr hsr).1
  · simp only [row, seed, get_foldl_seedRow_of_notMem a _ _ hreg, le_refl]

theorem allRows_nodup : (a.allRows.map ScanRow.reg).Nodup := by
  have : a.allRows.map ScanRow.reg = (a.rows.scan [] [255]).map Prod.fst := by
    simp [allRows, Function.comp_def]
  rw [this]
  exact a.rows.nodup_keys.sublist (List.filter_sublist.map _)

theorem mem_allRows (hreg : reg < [255]) (hne : (a.row reg).accepted ≠ ⊥) :
    ∃ sr ∈ a.allRows, sr.reg = reg ∧ sr.accepted = (a.row reg).accepted := by
  rcases hg : a.rows.get reg with _ | r
  · simp [row, hg] at hne
  · refine ⟨⟨reg, r.promised, r.accepted, r.value, r.hasValue⟩, ?_, rfl, by simp [row, hg]⟩
    exact List.mem_map.2 ⟨(reg, r), KV.mem_scan.2 ⟨hg, not_lt.1 (List.not_lt_nil _), hreg⟩, rfl⟩

end seed

/-- What traffic and views do to an acceptor: its accepted ballots grow, or a view that drops it
retires it. -/
structure Grown (a a' : Acceptor) : Prop where
  self : a'.self = a.self
  marker : a'.marker = a.marker
  rows : a'.retired = a.retired ∧ (∀ reg, (a.row reg).accepted ≤ (a'.row reg).accepted) ∨
    a'.retired = true ∧ a.retired = false ∧ a.marker ≠ none

theorem grown_refl (a : Acceptor) : Grown a a := ⟨rfl, rfl, .inl ⟨rfl, fun _ => le_rfl⟩⟩

theorem grown_install (a : Acceptor) (u : View) : Grown a (a.install u) := by
  obtain ⟨hself, hmark, -⟩ := a.install_fields u
  refine ⟨hself, hmark, ?_⟩
  unfold install
  simp only
  split_ifs with h1 h2
  · exact .inl ⟨rfl, fun _ => le_rfl⟩
  · simp only [Bool.and_eq_true, Bool.not_eq_true', Option.isSome_iff_ne_none] at h2
    exact .inr ⟨rfl, h2.1.2, h2.2⟩
  · exact .inl ⟨rfl, fun _ => le_rfl⟩

theorem Served.grown (h : a.Served m a' r) (ht : Single.isTraffic m.req) : Grown a a' := by
  obtain ⟨h1, h2, -, h4, h5⟩ := h.traffic ht
  exact ⟨h2, h4, .inl ⟨h5, h1⟩⟩

end Acceptor

theorem View.compare_lt {v : View} {inc epoch : ℕ} : v.compare inc epoch = .lt ↔
    v.incarnation < inc ∨ v.incarnation = inc ∧ v.epoch < epoch := by
  unfold compare
  split_ifs <;> simp <;> omega

theorem View.compare_gt {v : View} {inc epoch : ℕ} : v.compare inc epoch = .gt ↔
    inc < v.incarnation ∨ v.incarnation = inc ∧ epoch < v.epoch := by
  unfold compare
  split_ifs <;> simp <;> omega

namespace Single

open Machine

variable {views : Codec View} {S : Setup} {s₀ s s' : State} {act : Action} {as : List Action}
  {w : NodeID} {reg : Bytes} {b : Ballot} {rows : List ScanRow} {a a' : Acceptor}

/-- The single voter accepted the ballot under an older view. -/
def OldVote (S : Setup) (log : List Event) (reg : Bytes) (b : Ballot) : Prop :=
  ∃ e ∈ log, (∃ x, e.IsVote S.single reg b x) ∧
    S.view.compare e.msg.incarnation e.msg.epoch = .gt

/-- The single voter held the ballot, or accepted it since under an older view. -/
def Committed (S : Setup) (s₀ s : State) (reg : Bytes) (b : Ballot) : Prop :=
  b ≤ ((s₀.acc S.single).row reg).accepted ∨ OldVote S s.log reg b

/-- The acceptor does not serve. -/
def Idle (a : Acceptor) : Prop := a.marker = none ∨ a.retired = true

/-- The acceptor has these rows, or newer ones. -/
def Has (rows : List ScanRow) (a : Acceptor) : Prop :=
  ∀ sr ∈ rows, sr.accepted ≤ (a.row sr.reg).accepted

/-- The single voter takes no more votes for an older view. -/
def Fenced (S : Setup) (s : State) : Prop :=
  ∃ u, (s.acc S.single).installed = some u ∧
    u.compare S.view.incarnation S.view.epoch ≠ .lt

/-- The rows have all that was committed. -/
def Complete (S : Setup) (s₀ s : State) (rows : List ScanRow) : Prop :=
  ∀ reg b, reg < [255] → Committed S s₀ s reg b → b ≠ ⊥ →
    ∃ sr ∈ rows, sr.reg = reg ∧ b ≤ sr.accepted

/-- What is known from where the call is. -/
def Progress (S : Setup) (s₀ s : State) : Prop :=
  match s.coord with
  | .seeding rows todo rest => Fenced S s ∧ (rows.map ScanRow.reg).Nodup ∧
      Complete S s₀ s rows ∧ todo.Nodup ∧ (∀ w ∈ todo, w ∈ S.newIDs ∧ Idle (s.acc w)) ∧
      (∀ w ∈ S.newIDs, w ∉ todo → (s.acc w).retired = true ∨ Has rows (s.acc w)) ∧
      ∀ w ∈ todo.head?, ∃ sent, rows = sent ++ rest ∧ Has sent (s.acc w)
  | .returned => Fenced S s ∧ ∃ rows, Complete S s₀ s rows ∧
      ∀ w ∈ S.newIDs, (s.acc w).retired = true ∨ Has rows (s.acc w)
  | .deferred | .failed => True
  | _ => ∀ w ∈ S.newIDs, Idle (s.acc w)

/-- The single voter keeps what was committed, and the call knows what it has copied. -/
structure Inv (S : Setup) (s₀ s : State) : Prop where
  self : ∀ w, (s.acc w).self = w
  held : ∀ reg b, Committed S s₀ s reg b → b ≤ ((s.acc S.single).row reg).accepted
  progress : Progress S s₀ s

/-- The coordinator reads its rows with the new view installed, and every seed is applied. -/
def Sound (S : Setup) (s : State) : Action → Prop
  | .copy => ∃ u ∈ (s.acc S.single).installed,
      u.compare S.view.incarnation S.view.epoch ≠ .lt
  | .seed applied => applied = true
  | _ => True

instance : ∀ (s : State) (act : Action), Decidable (Sound S s act)
  | s, .copy => inferInstanceAs (Decidable (∃ u ∈ (s.acc S.single).installed,
      u.compare S.view.incarnation S.view.epoch ≠ .lt))
  | _, .seed applied => inferInstanceAs (Decidable (applied = true))
  | _, .traffic _ _ _ | _, .learn _ _ | _, .install _ _ | _, .begin _ | _, .commit | _, .adopt
  | _, .installOwn | _, .mark | _, .finish | _, .fail => .isTrue trivial

/-- Before the call: one voter, distinct new ones, none of which serves as a voter. -/
structure Start (S : Setup) (s : State) : Prop where
  one : S.old.voters.length = 1
  coord : s.coord = .start
  self : ∀ w, (s.acc w).self = w
  log : s.log = []
  nodup : S.newIDs.Nodup
  single : S.single ∉ S.newIDs
  idle : ∀ w ∈ S.newIDs, Idle (s.acc w)

theorem Start.inv (h : Start S s) : Inv S s s := by
  refine ⟨h.self, ?_, ?_⟩
  · rintro reg b (hb | ⟨e, he, -⟩)
    · exact hb
    · simp [h.log] at he
  · rw [Progress, h.coord]
    exact h.idle

section grown

variable (hg : a.Grown a')
include hg

theorem Idle.grown (h : Idle a) : Idle a' := by
  rcases h with h | h
  · exact .inl (hg.marker.trans h)
  · rcases hg.rows with ⟨hr, -⟩ | ⟨hr, -⟩
    · exact .inr (hr.trans h)
    · exact .inr hr

theorem Has.grown (h : Has rows a) (hi : Idle a) : Has rows a' := by
  rcases hg.rows with ⟨-, hle⟩ | ⟨-, hret, hmark⟩
  · exact fun sr hsr => (h sr hsr).trans (hle _)
  · rcases hi with hi | hi
    · exact absurd hi hmark
    · simp [hret] at hi

theorem retired_or_has_grown (h : a.retired = true ∨ Has rows a) :
    a'.retired = true ∨ Has rows a' := by
  rcases hg.rows with ⟨hr, hle⟩ | ⟨hr, -⟩
  · exact h.imp (hr.trans ·) fun h sr hsr => (h sr hsr).trans (hle _)
  · exact .inl hr

end grown

/-- A step that leaves the call where it is. -/
theorem Inv.frame (h : Inv S s₀ s) (hcoord : s'.coord = s.coord)
    (hg : ∀ w, (s.acc w).Grown (s'.acc w))
    (hheld : ∀ reg b, Committed S s₀ s' reg b → b ≤ ((s'.acc S.single).row reg).accepted)
    (hf : Fenced S s → Fenced S s' ∧
      ∀ reg b, Committed S s₀ s' reg b → Committed S s₀ s reg b) : Inv S s₀ s' := by
  refine ⟨fun w => (hg w).self.trans (h.self w), hheld, ?_⟩
  have hp := h.progress
  unfold Progress at hp ⊢
  rw [hcoord]
  split at hp
  · obtain ⟨hfence, hnd, hcomp, htodo, hidle, hdone, hhead⟩ := hp
    refine ⟨(hf hfence).1, hnd, fun reg b hr hc => hcomp reg b hr ((hf hfence).2 reg b hc), htodo,
      fun w hw => ⟨(hidle w hw).1, (hidle w hw).2.grown (hg w)⟩,
      fun w hw hn => retired_or_has_grown (hg w) (hdone w hw hn), fun w hw => ?_⟩
    obtain ⟨sent, hsent, hhas⟩ := hhead w hw
    exact ⟨sent, hsent, hhas.grown (hg w) (hidle w (List.mem_of_mem_head? hw)).2⟩
  · obtain ⟨hfence, rows, hcomp, hdone⟩ := hp
    exact ⟨(hf hfence).1, rows, fun reg b hr hc => hcomp reg b hr ((hf hfence).2 reg b hc),
      fun w hw => retired_or_has_grown (hg w) (hdone w hw)⟩
  · trivial
  · trivial
  · exact fun w hw => (hp w hw).grown (hg w)

theorem grown_update (s : State) (w : NodeID) (hg : (s.acc w).Grown a) (u : NodeID) :
    (s.acc u).Grown ((s.setAcc w a).acc u) := by
  by_cases hu : u = w
  · subst hu
    simpa [State.setAcc] using hg
  · simpa [State.setAcc, Function.update_of_ne hu] using (s.acc u).grown_refl

theorem Inv.traffic (h : Inv S s₀ s) {m : Msg} {now : ℤ} (ht : isTraffic m.req) :
    Inv S s₀ { s.setAcc w ((s.acc w).handle now m).1 with
      log := ⟨w, m, ((s.acc w).handle now m).2⟩ :: s.log } := by
  have hserved : (s.acc w).Served m ((s.acc w).handle now m).1
      ((s.acc w).handle now m).2.reply := Acceptor.handle_served rfl
  have hg := grown_update s w (hserved.grown ht)
  obtain ⟨hmono, -, hinst, -, -⟩ := hserved.traffic ht
  have hrow : ∀ reg, ((s.acc S.single).row reg).accepted ≤
      (((s.setAcc w ((s.acc w).handle now m).1).acc S.single).row reg).accepted := by
    intro reg
    by_cases hw : S.single = w
    · simpa [State.setAcc, hw] using hmono reg
    · simp [State.setAcc, Function.update_of_ne hw]
  -- a new vote of the single voter is in its row, and was given at the epoch it has installed
  have hnew : ∀ reg b x, Event.IsVote ⟨w, m, ((s.acc w).handle now m).2⟩ S.single reg b x →
      (s.acc S.single).AtEpoch m ∧
        b ≤ (((s.setAcc w ((s.acc w).handle now m).1).acc S.single).row reg).accepted := by
    rintro reg b x ⟨hw, ⟨n, hreq⟩, hrep⟩
    have hw' : w = S.single := hw
    subst hw'
    have hacc : ((s.acc S.single).handle now m).2.reply = .accepted := hrep
    rw [hacc] at hserved
    obtain ⟨he, hb⟩ := hserved.vote hreq
    exact ⟨he, by simp [State.setAcc, hb]⟩
  refine h.frame rfl hg ?_ fun hf => ⟨?_, ?_⟩
  · rintro reg b (hb | ⟨e, he, hv, hgt⟩)
    · exact (h.held reg b (.inl hb)).trans (hrow reg)
    · rcases List.mem_cons.1 he with rfl | he
      · obtain ⟨x, hx⟩ := hv
        exact (hnew reg b x hx).2
      · exact (h.held reg b (.inr ⟨e, he, hv, hgt⟩)).trans (hrow reg)
  · obtain ⟨u, hu, hlt⟩ := hf
    refine ⟨u, ?_, hlt⟩
    by_cases hw : S.single = w
    · subst hw
      simpa [State.setAcc] using hinst.trans hu
    · simpa [State.setAcc, Function.update_of_ne hw] using hu
  · rintro reg b (hb | ⟨e, he, hv, hgt⟩)
    · exact .inl hb
    · rcases List.mem_cons.1 he with rfl | he
      · obtain ⟨x, hx⟩ := hv
        obtain ⟨u, hu, hlt⟩ := hf
        obtain ⟨v, hv', hinc, hep⟩ := (hnew reg b x hx).1
        obtain rfl := Option.some.inj (hu.symm.trans hv')
        rw [View.compare_gt] at hgt
        rw [Ne, View.compare_lt] at hlt
        simp only at hgt
        omega
      · exact .inr ⟨e, he, hv, hgt⟩

theorem Fenced.install (hf : Fenced S s) (u : View) :
    Fenced S (s.setAcc w ((s.acc w).install u)) := by
  obtain ⟨v, hv, hlt⟩ := hf
  by_cases hw : S.single = w
  · subst hw
    have : ∃ v', ((s.acc S.single).install u).installed = some v' ∧
        v'.compare S.view.incarnation S.view.epoch ≠ .lt := by
      unfold Acceptor.install
      simp only [hv]
      rcases hc : v.compare u.incarnation u.epoch with _ | _ | _
      · refine ⟨u, by simp only [Bool.false_eq_true, if_false]; split_ifs <;> rfl, ?_⟩
        rw [View.compare_lt] at hc
        rw [Ne, View.compare_lt] at hlt ⊢
        omega
      · rw [View.compare_eq] at hc
        have hu : u.compare S.view.incarnation S.view.epoch ≠ .lt := by
          rw [Ne, View.compare_lt] at hlt ⊢
          omega
        simp only [decide_eq_true_eq]
        split_ifs
        · exact ⟨v, hv, hlt⟩
        · exact ⟨u, rfl, hu⟩
        · exact ⟨u, rfl, hu⟩
      · exact ⟨v, by simpa using hv, hlt⟩
    simpa [Fenced, State.setAcc] using this
  · exact ⟨v, by simpa [State.setAcc, Function.update_of_ne hw] using hv, hlt⟩

theorem install_single (h : Inv S s₀ s) {u : View} (hu : u.isVoter S.single) (reg : Bytes) :
    ((s.setAcc w ((s.acc w).install u)).acc S.single).row reg = (s.acc S.single).row reg := by
  by_cases hw : S.single = w
  · subst hw
    have hv : u.isVoter (s.acc S.single).self := by rwa [h.self]
    simp [State.setAcc, Acceptor.row, (Acceptor.install_of_isVoter hv).1]
  · simp [State.setAcc, Function.update_of_ne hw]

theorem Inv.install (h : Inv S s₀ s) {u : View} (hu : u.isVoter S.single) :
    Inv S s₀ (s.setAcc w ((s.acc w).install u)) := by
  refine h.frame rfl (grown_update s w ((s.acc w).grown_install u)) ?_ fun hf =>
    ⟨hf.install u, fun _ _ hc => hc⟩
  intro reg b hc
  rw [install_single h hu]
  exact h.held reg b hc

theorem Setup.view_voters (h : S.old.voters.length = 1) :
    S.view.voterIDs = S.single :: S.newIDs := by
  obtain ⟨vo, hvo⟩ := List.length_eq_one_iff.1 h
  simp [Setup.view, change, hvo, nextView, View.voterIDs, Setup.single, Function.comp_def]

theorem Setup.isVoter_single (h : S.old.voters.length = 1) : S.view.isVoter S.single := by
  have hmem : S.single ∈ S.view.voterIDs := by simp [Setup.view_voters h]
  obtain ⟨vo, hvo, hid⟩ := List.mem_map.1 hmem
  exact List.any_eq_true.2 ⟨vo, hvo, by simp [hid]⟩

theorem Inv.goto (h : Inv S s₀ s) {c : Coord} (hp : Progress S s₀ (s.goto c)) :
    Inv S s₀ (s.goto c) :=
  ⟨h.self, h.held, hp⟩

theorem acc_setAcc_of_ne (s : State) {w u : NodeID} (a : Acceptor) (h : u ≠ w) :
    (s.setAcc w a).acc u = s.acc u := by
  simp [State.setAcc, Function.update_of_ne h]

theorem acc_setAcc (s : State) (w : NodeID) (a : Acceptor) : (s.setAcc w a).acc w = a := by
  simp [State.setAcc]

theorem Inv.setNew (h : Inv S s₀ s) {c : Coord} (hw : w ≠ S.single) (hself : a.self = w)
    (hp : Progress S s₀ ((s.setAcc w a).goto c)) : Inv S s₀ ((s.setAcc w a).goto c) := by
  refine ⟨fun u => ?_, fun reg b hc => ?_, hp⟩
  · by_cases hu : u = w
    · subst hu
      simpa [State.goto, State.setAcc] using hself
    · simpa [State.goto, acc_setAcc_of_ne s a hu] using h.self u
  · have := h.held reg b hc
    rwa [← acc_setAcc_of_ne s a hw.symm] at this

theorem Fenced.setNew {c : Coord} (h : Fenced S s) (hw : w ≠ S.single) :
    Fenced S ((s.setAcc w a).goto c) := by
  obtain ⟨u, hu, hlt⟩ := h
  exact ⟨u, by simpa [State.goto, acc_setAcc_of_ne s a hw.symm] using hu, hlt⟩

section coordinator

variable (hs : Start S s₀) (h : Inv S s₀ s)
include hs h

/-- The copy is complete, as the single voter is fenced. -/
theorem Inv.copy (hn : S.node = S.single) (hf : Fenced S s) (hc : s.coord = .copying) :
    Inv S s₀ (s.goto (.seeding (s.acc S.node).allRows S.newIDs (s.acc S.node).allRows)) := by
  have hp := h.progress
  rw [Progress, hc] at hp
  refine h.goto ⟨hf, Acceptor.allRows_nodup _, fun reg b hreg hcom hne => ?_, hs.nodup,
    fun w hw => ⟨hw, hp w hw⟩, fun w hw hnot => absurd hw hnot,
    fun w _ => ⟨[], rfl, fun sr hsr => by simp at hsr⟩⟩
  have hle := h.held reg b hcom
  have hne' : ((s.acc S.single).row reg).accepted ≠ ⊥ := fun hz => hne (le_bot_iff.1 (hz ▸ hle))
  obtain ⟨sr, hsr, hr, hacc⟩ := Acceptor.mem_allRows _ hreg hne'
  exact ⟨sr, hn ▸ hsr, hr, hle.trans hacc.ge⟩

/-- A batch more is with the new voter. -/
theorem Inv.seed {todo : List NodeID} {rest : List ScanRow}
    (hc : s.coord = .seeding rows (w :: todo) rest) :
    Inv S s₀ ((s.setAcc w ((s.acc w).seed (rest.take seedBatch)).1).goto
      (.seeding rows (w :: todo) (rest.drop seedBatch))) := by
  have hp := h.progress
  rw [Progress, hc] at hp
  obtain ⟨hf, hnd, hcomp, htodo, hidle, hdone, hhead⟩ := hp
  obtain ⟨hnew, hi⟩ := hidle w (by simp)
  have hw : w ≠ S.single := fun he => hs.single (he ▸ hnew)
  obtain ⟨sent, rfl, hhas⟩ := hhead w (by simp)
  have hchunk : ((rest.take seedBatch).map ScanRow.reg).Nodup := by
    rw [List.map_append, List.nodup_append] at hnd
    exact hnd.2.1.sublist ((List.take_sublist _ _).map _)
  obtain ⟨hmono, hcover⟩ := (s.acc w).seed_accepted hchunk
  refine h.setNew hw (h.self w) ⟨hf.setNew hw, hnd, hcomp, htodo, fun u hu => ?_,
    fun u hu hnot => ?_, fun u hu => ?_⟩
  · refine ⟨(hidle u hu).1, ?_⟩
    by_cases huw : u = w
    · subst huw
      simp only [State.goto, acc_setAcc]
      exact hi
    · simpa [State.goto, acc_setAcc_of_ne s _ huw] using (hidle u hu).2
  · have huw : u ≠ w := fun he => hnot (by simp [he])
    simpa [State.goto, acc_setAcc_of_ne s _ huw] using hdone u hu hnot
  · obtain rfl : w = u := by simpa using hu
    refine ⟨sent ++ rest.take seedBatch, by simp, fun sr hsr => ?_⟩
    simp only [State.goto, acc_setAcc]
    rcases List.mem_append.1 hsr with hsr | hsr
    · exact (hhas sr hsr).trans (hmono _)
    · exact hcover sr hsr

/-- A new voter has all rows when its marker is set. -/
theorem Inv.mark {todo : List NodeID} (hc : s.coord = .seeding rows (w :: todo) []) :
    Inv S s₀ ((s.setAcc w ((s.acc w).setMarker S.view.epoch)).goto (.seeding rows todo rows)) := by
  have hp := h.progress
  rw [Progress, hc] at hp
  obtain ⟨hf, hnd, hcomp, htodo, hidle, hdone, hhead⟩ := hp
  have hw : w ≠ S.single := fun he => hs.single (he ▸ (hidle w (by simp)).1)
  rw [List.nodup_cons] at htodo
  obtain ⟨sent, hsent, hhas⟩ := hhead w (by simp)
  rw [List.append_nil] at hsent
  subst hsent
  refine h.setNew hw (h.self w) ⟨hf.setNew hw, hnd, hcomp, htodo.2, fun u hu => ?_,
    fun u hu hnot => ?_, fun u _ => ⟨[], rfl, fun sr hsr => by simp at hsr⟩⟩
  · have huw : u ≠ w := fun he => htodo.1 (he ▸ hu)
    simpa [State.goto, acc_setAcc_of_ne s _ huw] using hidle u (by simp [hu])
  · by_cases huw : u = w
    · subst huw
      simp only [State.goto, acc_setAcc]
      exact .inr hhas
    · simpa [State.goto, acc_setAcc_of_ne s _ huw] using hdone u hu (by simp [huw, hnot])

/-- Every sound step of a coordinator that is the single voter keeps the invariant. -/
theorem inv_step (hn : S.node = S.single) (hok : Sound S s act)
    (hstep : step views S s act = some s') : Inv S s₀ s' := by
  have hp := h.progress
  cases act with
  | traffic w m now =>
    simp only [step] at hstep
    split_ifs at hstep with ht
    cases hstep
    exact h.traffic ht
  | learn w u =>
    simp only [step] at hstep
    split_ifs at hstep
    cases hstep
    exact h.frame rfl (fun w => (s.acc w).grown_refl) h.held fun hf => ⟨hf, fun _ _ hc => hc⟩
  | install w u =>
    simp only [step] at hstep
    split_ifs at hstep with hu
    cases hstep
    simp only [Setup.circulates, decide_eq_true_eq] at hu
    exact h.install hu.1
  | begin pinged =>
    simp only [step] at hstep
    split_ifs at hstep with h1 h2 h3 h4
    all_goals
      cases hstep
      rw [not_not] at h1
      rw [Progress, h1] at hp
      first | exact h.goto hp | exact h.goto trivial
  | commit =>
    simp only [step] at hstep
    split at hstep
    · cases hstep
      exact h.goto trivial
    · rename_i hc
      split_ifs at hstep
      cases hstep
      rw [Progress, hc] at hp
      exact h.goto hp
    · cases hstep
  | adopt =>
    simp only [step] at hstep
    split_ifs at hstep with h1 h2
    all_goals
      cases hstep
      rw [not_not] at h1
      rw [Progress, h1] at hp
    · exact h.goto hp
    · exact ⟨h.self, h.held, hp⟩
  | installOwn =>
    simp only [step] at hstep
    split_ifs at hstep with h1
    cases hstep
    rw [not_not] at h1
    have hi := h.install (w := S.node) (Setup.isVoter_single hs.one)
    have hp' := hi.progress
    simp only [Progress, State.setAcc, h1] at hp'
    exact hi.goto hp'
  | copy =>
    simp only [step] at hstep
    split_ifs at hstep with h1
    cases hstep
    rw [not_not] at h1
    exact h.copy hs hn hok h1
  | seed applied =>
    simp only [step] at hstep
    split at hstep
    · rename_i rows w todo r rest hc
      obtain rfl : applied = true := hok
      simp only [if_true] at hstep
      cases hstep
      exact h.seed hs hc
    · cases hstep
  | mark =>
    simp only [step] at hstep
    split at hstep
    · cases hstep
      exact h.mark hs ‹_›
    · cases hstep
  | finish =>
    simp only [step] at hstep
    split at hstep
    · rename_i rows rest hc
      cases hstep
      rw [Progress, hc] at hp
      exact h.goto ⟨hp.1, rows, hp.2.2.1, fun w hw => hp.2.2.2.2.2.1 w hw (by simp)⟩
    · cases hstep
  | fail =>
    simp only [step] at hstep
    split at hstep <;> cases hstep <;> exact h.goto trivial

end coordinator

/-- Over every run of `addVoterFromSingle` on the single voter itself, with any traffic and late
views around it: once it has returned, every voter of the new view that can answer at its epoch
holds everything the single voter had committed, and so does some voter of every quorum that can
answer. -/
theorem committed_kept (hs : Start S s₀) (hn : S.node = S.single)
    (hok : Along (step views S) (Sound S) s₀ as) (hr : run (step views S) s₀ as = some s)
    (hret : s.coord = .returned) {Q : Finset NodeID} (hQ : Majority.IsQuorum S.view.voterIDs Q)
    (hans : ∀ w ∈ Q, canAnswer S.view (s.acc w)) :
    ∃ w ∈ Q, ∀ reg b, reg < [255] → Committed S s₀ s reg b →
      b ≤ ((s.acc w).row reg).accepted := by
  have h : Inv S s₀ s :=
    invariant_along (fun _ _ _ h hok hstep => inv_step hs h hn hok hstep) as hs.inv hok hr
  have hp := h.progress
  rw [Progress, hret] at hp
  obtain ⟨-, rows, hcomp, hdone⟩ := hp
  obtain ⟨w, hw⟩ := hQ.nonempty
  refine ⟨w, hw, fun reg b hreg hc => ?_⟩
  have hmem := hQ.subset w hw
  rw [Setup.view_voters hs.one, List.mem_cons] at hmem
  rcases hmem with rfl | hmem
  · exact h.held reg b hc
  by_cases hne : b = ⊥
  · exact hne ▸ bot_le
  have hret : (s.acc w).retired ≠ true := fun hret => by
    have ha := hans w hw
    simp only [canAnswer] at ha
    split at ha
    · simp [Acceptor.refuseIfForgetful, hret] at ha
    · cases ha
  obtain ⟨sr, hsr, rfl, hle⟩ := hcomp reg b hreg hc hne
  exact hle.trans ((hdone w hmem).resolve_left hret sr hsr)

namespace Pair

/-- One voter, with another one deferred. -/
def old : View :=
  { incarnation := 1, epoch := 1, version := 1, voters := [⟨1, 1⟩], nodes := [1, 2]
    deferredVoters := [2] }

/-- The call on a node. -/
def setup (node : NodeID) : Setup := ⟨node, 3, [2, 3], old⟩

/-- The cluster before the call. -/
def start : State where
  acc w := { self := w, installed := some old, marker := if w = 1 then some 1 else none }
  view _ := old
  log := []
  coord := .start

theorem start_start (node : NodeID) : Start (setup node) start :=
  ⟨rfl, rfl, fun _ => rfl, rfl, by simp [setup], by simp [setup, Setup.single, old, View.voterIDs],
    fun w hw => .inl (by
      have hne : w ≠ 1 := by rintro rfl; simp [setup] at hw
      simp [start, hne])⟩

def write : List Action :=
  [.traffic 1 ⟨1, 1, .prepare [7] ⟨1, 1⟩⟩ 0, .traffic 1 ⟨1, 1, .accept [7] ⟨1, 1⟩ [5] true 0⟩ 0]

/-- The call up to its copy. -/
def cas (node : NodeID) : List Action :=
  [.begin true, .traffic 1 ⟨1, 1, .prepare regView ⟨2, node⟩⟩ 0,
    .traffic 1 ⟨1, 1, .accept regView ⟨2, node⟩ (viewCodec.enc (setup node).view) true 0⟩ 0,
    .commit, .adopt, .installOwn, .copy]

/-- The call on the single voter itself. -/
def own : List Action :=
  write ++ cas 1 ++ [.seed true, .mark, .seed true, .mark, .finish, .install 2 (setup 1).view,
    .install 3 (setup 1).view]

/-- The call on another node, which copies its own, empty, acceptor. -/
def other : List Action :=
  write ++ cas 2 ++ [.mark, .mark, .finish, .install 3 (setup 2).view]

end Pair

theorem committed_kept_own : ∃ s, run (step viewCodec (Pair.setup 1)) Pair.start Pair.own = some s ∧
    s.coord = .returned ∧ ∃ w ∈ ({2, 3} : Finset NodeID), ∀ reg b, reg < [255] →
      Committed (Pair.setup 1) Pair.start s reg b → b ≤ ((s.acc w).row reg).accepted := by
  obtain ⟨s, hs, hret, hans⟩ : ∃ s ∈ run (step viewCodec (Pair.setup 1)) Pair.start Pair.own,
      s.coord = .returned ∧ ∀ w ∈ ({2, 3} : Finset NodeID),
        canAnswer (Pair.setup 1).view (s.acc w) := by
    decide +kernel
  exact ⟨s, hs, hret, committed_kept (Pair.start_start 1) rfl (by decide +kernel) hs hret
    ⟨by decide +kernel, by decide +kernel⟩ hans⟩

/-- The call returns on node 2, and the quorum of voters 2 and 3 answers at the new epoch without
the value committed on voter 1, nor the view itself. -/
theorem committed_lost : ∃ s ∈ run (step viewCodec (Pair.setup 2)) Pair.start Pair.other,
    s.coord = .returned ∧ ((s.acc 1).row [7]).accepted = ⟨1, 1⟩ ∧
    (Pair.setup 2).view.voterIDs = [1, 2, 3] ∧ ∀ w ∈ [2, 3],
      canAnswer (Pair.setup 2).view (s.acc w) ∧ ((s.acc w).row [7]).accepted = ⊥ ∧
      ((s.acc w).row regView).accepted = ⊥ := by
  decide +kernel

end Single

end Dstore

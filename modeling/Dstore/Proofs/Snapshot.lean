import Dstore.Snapshot
import Dstore.Proofs.Listing
import Dstore.Proofs.Pledges

/-!
# The roots snapshot decides what it reads

A register that a majority was held to a ballot on before the snapshot began is either in a page,
with a row that is chosen and at or above that ballot once the page is settled, or was purged at
such a ballot.
-/

namespace Dstore.Snapshot

open Machine Listing

variable {σ ε ρ : Type} {C : Codecs ρ} {s s₀ s' : State σ ε} {as bs : List (Action σ ε)}
  {act : Action σ ε} {vs : List Voter} {v : View} {w : NodeID} {reg after : Bytes}
  {b d : Ballot} {x y : Bytes × Bool} {row : Row} {p : PageIn} {ps : List PageIn}
  {rows : List MergedRow} {next : Option Bytes} {r : MergedRow} {out : List RefEntry}
  {Q : Finset NodeID}

/-- A turn of the loop that ran between `s` and `s'`: the voters were asked for the page behind
`after`, and every settled row is what an identity transition begun since returned. -/
structure PageRan (s s' : State σ ε) (bs : List (Action σ ε)) (after : Bytes) (p : PageIn) :
    Prop where
  view : p.view ∈ s'.views
  asked : Asked s s' p.view (.scan prefixRef after 10000) p.replies
  settled : ∀ e ∈ p.settled, ∃ i node env c res, .propose i node e.1 identity 0 env ∈ bs ∧
    s'.calls i = some c ∧ c.phase = .done res none ∧ e.2 = settledRow res

/-- Each page asked for what follows the one before. -/
def Ran (s s' : State σ ε) (bs : List (Action σ ε)) : Bytes → List PageIn → Prop
  | _, [] => True
  | after, p :: ps => PageRan s s' bs after p ∧
      ∀ rows k, p.scanned = .page rows (some k) → Ran s s' bs k ps

section entries

theorem entries_eq_some : ∀ {rows : List MergedRow} {out : List RefEntry},
    entries C p rows = some out → (∀ r ∈ rows, ∃ row, p.row r = some row) ∧
      ∀ x, x ∈ out ↔ ∃ r ∈ rows, ∃ row rv, p.row r = some row ∧ liveRef C row = some rv ∧
        x = ⟨r.reg.drop prefixRef.length, rv, false⟩
  | [], out, h => by
    cases h
    simp
  | r :: rs, out, h => by
    rw [entries] at h
    split at h
    · cases h
    rename_i row hrow
    obtain ⟨out', hout', rfl⟩ := Option.map_eq_some_iff.1 h
    obtain ⟨hall, hmem⟩ := entries_eq_some hout'
    refine ⟨fun r' hr' => ?_, fun x => ?_⟩
    · rcases List.mem_cons.1 hr' with rfl | hr'
      · exact ⟨row, hrow⟩
      · exact hall r' hr'
    · rcases hlive : liveRef C row with _ | rv
      · simp [hmem, hrow, hlive]
      · simp [hmem, hrow, hlive]

end entries

/-- The pages of a turn are those of a majority of acceptors, each as it was when it answered. -/
structure Gathered (vs : List Voter) (s s' : State σ ε) (after : Bytes) (rows : List MergedRow)
    (next : Option Bytes) (got : List (NodeID × Acceptor)) : Prop where
  quorum : Majority.IsQuorum (ids vs) (got.map Prod.fst).toFinset
  seen : ∀ g ∈ got, Seen s s' g.1 g.2
  rows : rows = mergedRows got.length
    ((mergeInput ((got.map Prod.snd).map (pageOf prefixRef after 10000))).foldl mergeRow .empty)
  next : next = cut ((got.map Prod.snd).map (pageOf prefixRef after 10000))

theorem exists_acceptors {f : Acceptor → Page} {P : NodeID → Acceptor → Prop} :
    ∀ {got : List (NodeID × Page)}, (∀ g ∈ got, ∃ a, P g.1 a ∧ g.2 = f a) →
      ∃ accs : List (NodeID × Acceptor), accs.map Prod.fst = got.map Prod.fst ∧
        (accs.map Prod.snd).map f = got.map Prod.snd ∧ ∀ g ∈ accs, P g.1 g.2
  | [], _ => ⟨[], rfl, rfl, by simp⟩
  | g :: got, h => by
    obtain ⟨a, hP, ha⟩ := h g (by simp)
    obtain ⟨accs, h1, h2, h3⟩ := exists_acceptors fun g' hg' => h g' (List.mem_cons_of_mem g hg')
    refine ⟨(g.1, a) :: accs, by simp [h1], by simp [ha, ← h2], fun g' hg' => ?_⟩
    rcases List.mem_cons.1 hg' with rfl | hg'
    · exact hP
    · exact h3 g' hg'

section page

variable (h : Held vs s) (hk : ∀ a ∈ bs, Kept a) (hr : run step s bs = some s')
include h hk hr

/-- The rows of a page, by voter. -/
theorem PageRan.gathered (hp : PageRan s s' bs after p) (hscan : p.scanned = .page rows next) :
    ∃ got, Gathered vs s s' after rows next got := by
  have h' := h.run hk hr
  unfold PageIn.scanned Dstore.scan at hscan
  split at hscan
  · cases hscan
  rename_i ps hps
  split_ifs at hscan with hlen
  cases hscan
  obtain ⟨got, rfl, hsub, hgot⟩ := pages_eq_ok hps
  have hids : ∀ g ∈ got, g.1 ∈ ids vs := fun g hg =>
    h'.voterIDs hp.view ▸ hp.asked.voter _ (hgot g hg)
  have hpage : ∀ g ∈ got, ∃ a, Seen s s' g.1 a ∧ g.2 = pageOf prefixRef after 10000 a :=
    fun g hg => scan_seen h hk hr (hp.asked.answer _ _ (hgot g hg)) (hids g hg) rfl rfl
  obtain ⟨accs, hfst, hpages, hseen⟩ := exists_acceptors hpage
  have hlen' : accs.length = got.length := by simpa using congrArg List.length hfst
  refine ⟨accs, ⟨fun w hw => ?_, ?_⟩, hseen, ?_, ?_⟩
  · rw [hfst] at hw
    obtain ⟨g, hg, rfl⟩ := List.mem_map.1 (List.mem_toFinset.1 hw)
    exact hids g hg
  · rw [hfst, List.toFinset_card_of_nodup (hp.asked.nodup.sublist hsub), List.length_map,
      ← h'.voterIDs hp.view, ← View.quorum_eq]
    simpa using hlen
  · rw [hpages, List.length_map, hlen']
  · rw [hpages]

theorem PageRan.settled_chosen (hp : PageRan s s' bs after p) (he : (reg, row) ∈ p.settled) :
    Chosen vs s' reg row.accepted (row.value, row.hasValue) ∧
      ∀ Q b, Majority.IsQuorum (ids vs) Q → (∀ w ∈ Q, Pledged s.log w reg b) →
        b < row.accepted := by
  have h' := h.run hk hr
  obtain ⟨i, node, env, c, res, hm, hc, hphase, rfl⟩ := hp.settled _ he
  obtain ⟨c', hc', hreg, -⟩ := h.toRoundInv.proposed hr hm
  obtain rfl := Option.some.inj (hc.symm.trans hc')
  obtain ⟨q, hq, hi, -, hqreg, rfl, -, hch⟩ := h'.toRoundInv.success h'.voters hc hphase
  obtain rfl : q.reg = reg := hqreg.trans hreg
  exact ⟨hch, fun Q b hQ hb =>
    proposal_above h hk hr (calls_eq_none h.toRoundInv hr hm) hq hi hQ hb⟩

end page

theorem PageIn.row_cases (h : p.row r = some row) :
    r.undecided = false ∧ r.row = row ∨ (r.reg, row) ∈ p.settled := by
  unfold PageIn.row at h
  split_ifs at h with hu
  · obtain ⟨e, he, rfl⟩ := Option.map_eq_some_iff.1 h
    have hreg : e.1 = r.reg := by simpa using List.find?_some he
    exact .inr (hreg ▸ List.mem_of_find?_eq_some he)
  · exact .inl ⟨by simpa using hu, by simpa using h⟩

section gathered

variable {got : List (NodeID × Acceptor)} (hg : Gathered vs s s' after rows next got)
include hg

theorem Gathered.mem_input {sr : ScanRow} : sr ∈ mergeInput
      ((got.map Prod.snd).map (pageOf prefixRef after 10000)) ↔
    (∃ g ∈ got, ∃ r, g.2.rows.get sr.reg = some r ∧ Acceptor.lower prefixRef after ≤ sr.reg ∧
      sr.reg < Acceptor.upper prefixRef ∧
      sr = ⟨sr.reg, r.promised, r.accepted, r.value, r.hasValue⟩) ∧ ∀ k ∈ next, sr.reg ≤ k := by
  rw [mem_mergeInput (named_of_isPrefix (by decide)), hg.next]
  refine and_congr_left fun _ => ⟨?_, ?_⟩
  · rintro ⟨a, ha, hrow⟩
    obtain ⟨g, hmem, rfl⟩ := List.mem_map.1 ha
    exact ⟨g, hmem, hrow⟩
  · rintro ⟨g, hmem, hrow⟩
    exact ⟨g.2, List.mem_map_of_mem hmem, hrow⟩

theorem Gathered.cut_mem {k : Bytes} (hk : k ∈ next) :
    k ≠ [] ∧ Acceptor.lower prefixRef after ≤ k := by
  rw [hg.next] at hk
  obtain ⟨p, hp, hmore, rfl, hne⟩ := (cut_spec _).2 k hk
  obtain ⟨a, -, rfl⟩ := List.mem_map.1 hp
  obtain ⟨hrange, -, hlast⟩ := a.scanPage_covers prefixRef after 10000
  obtain ⟨sr, hsr, hreg⟩ := List.mem_map.1 (hlast hmore)
  obtain ⟨-, -, hlo, -⟩ := hrange sr hsr
  exact ⟨hne, hlo.trans hreg.le⟩

theorem Gathered.held (hr : r ∈ rows) : ∃ g ∈ got, ∃ ar, g.2.rows.get r.reg = some ar ∧
    r.row = ar.toRow ∧ Acceptor.lower prefixRef after ≤ r.reg ∧
    r.reg < Acceptor.upper prefixRef ∧ ∀ k ∈ next, r.reg ≤ k := by
  rw [hg.rows] at hr
  obtain ⟨a, ha, hrow, -⟩ := mem_mergedRows hr
  obtain ⟨sr, hsr, hreg, hsource⟩ := ha.source
  obtain ⟨⟨g, hmem, ar, hget, hlo, hup, hshape⟩, hcut⟩ := hg.mem_input.1 hsr
  rw [hreg] at hget hlo hup hcut
  refine ⟨g, hmem, ar, hget, ?_, hlo, hup, hcut⟩
  rw [hrow, hsource, hshape]
  rfl

theorem Gathered.settled (hr : r ∈ rows) (hset : r.undecided = false) {g : NodeID × Acceptor}
    (hmem : g ∈ got) : r.row.accepted ≠ ⊥ ∧ (g.2.row r.reg).accepted = r.row.accepted ∧
      g.2.promisedOn r.reg ≤ r.row.accepted := by
  rw [hg.rows, ← List.length_map Prod.snd] at hr
  obtain ⟨hne, ar, hget, hacc, hprom⟩ :=
    settled_of_acceptors hr hset (List.mem_map_of_mem hmem)
  refine ⟨hne, ?_, ?_⟩
  · simpa [Acceptor.row, hget] using hacc
  · simpa [Acceptor.promisedOn, hget] using hprom

theorem Gathered.chosen (h : Inv vs s') (hr : r ∈ rows) (hset : r.undecided = false) :
    Chosen vs s' r.reg r.row.accepted (r.row.value, r.row.hasValue) := by
  have hvoted : ∀ g ∈ got, Voted s'.log g.1 r.reg r.row.accepted
      ((g.2.row r.reg).value, (g.2.row r.reg).hasValue) := by
    intro g hmem
    obtain ⟨hne, hacc, -⟩ := hg.settled hr hset hmem
    have hvote := (hg.seen g hmem).voted r.reg (hacc ▸ hne)
    rwa [hacc] at hvote
  obtain ⟨g₀, hmem₀, ar, hget, hrow, -⟩ := hg.held hr
  refine ⟨_, hg.quorum, fun w hw => ?_⟩
  obtain ⟨g, hmem, rfl⟩ := List.mem_map.1 (List.mem_toFinset.1 hw)
  have hval : ((g₀.2.row r.reg).value, (g₀.2.row r.reg).hasValue) =
      (r.row.value, r.row.hasValue) := by
    simp [Acceptor.row, hget, hrow, AcceptorRow.toRow]
  rw [← hval, ← h.voted_unique (hvoted g hmem) (hvoted g₀ hmem₀)]
  exact hvoted g hmem

theorem Gathered.mem_or_erased (hlo : Acceptor.lower prefixRef after ≤ reg)
    (hup : reg < Acceptor.upper prefixRef) (hcut : ∀ k ∈ next, reg ≤ k)
    (hQ : Majority.IsQuorum (ids vs) Q) (hb : ∀ w ∈ Q, Pledged s.log w reg b) :
    (∃ r ∈ rows, r.reg = reg) ∨ ∃ w ∈ ids vs, Erased s'.log w reg b := by
  obtain ⟨w, hw, hwQ⟩ := hg.quorum.exists_mem hQ
  obtain ⟨g, hmem, rfl⟩ := List.mem_map.1 (List.mem_toFinset.1 hw)
  rcases hget : g.2.rows.get reg with _ | ar
  · exact .inr ⟨g.1, hQ.subset _ hwQ, (hg.seen g hmem).erased reg b hget (hb _ hwQ)⟩
  · have hin : (⟨reg, ar.promised, ar.accepted, ar.value, ar.hasValue⟩ : ScanRow) ∈
        mergeInput ((got.map Prod.snd).map (pageOf prefixRef after 10000)) :=
      hg.mem_input.2 ⟨⟨g, hmem, ar, hget, hlo, hup, rfl⟩, hcut⟩
    rw [hg.rows]
    exact .inl (exists_mergedRow got.length hin)

end gathered

section page

variable (h : Held vs s) (hk : ∀ a ∈ bs, Kept a) (hr : run step s bs = some s')
  (hp : PageRan s s' bs after p) (hscan : p.scanned = .page rows next)
include h hk hr hp hscan

theorem PageRan.row_chosen (hmem : r ∈ rows) (hrow : p.row r = some row) :
    Chosen vs s' r.reg row.accepted (row.value, row.hasValue) ∧
      ∀ Q b, Majority.IsQuorum (ids vs) Q → (∀ w ∈ Q, Pledged s.log w r.reg b) →
        b ≤ row.accepted := by
  rcases PageIn.row_cases hrow with ⟨hset, rfl⟩ | hset
  · obtain ⟨got, hg⟩ := hp.gathered h hk hr hscan
    refine ⟨hg.chosen (h.run hk hr).toInv hmem hset, fun Q b hQ hb => ?_⟩
    obtain ⟨w, hw, hwQ⟩ := hg.quorum.exists_mem hQ
    obtain ⟨g, hgm, rfl⟩ := List.mem_map.1 (List.mem_toFinset.1 hw)
    exact ((hg.seen g hgm).pledged r.reg b (hb _ hwQ)).trans (hg.settled hmem hset hgm).2.2
  · obtain ⟨hch, habove⟩ := hp.settled_chosen h hk hr hset
    exact ⟨hch, fun Q b hQ hb => (habove Q b hQ hb).le⟩

theorem PageRan.decides (hent : entries C p rows = some out)
    (hlo : Acceptor.lower prefixRef after ≤ reg) (hup : reg < Acceptor.upper prefixRef)
    (hcut : ∀ k ∈ next, reg ≤ k) (hQ : Majority.IsQuorum (ids vs) Q)
    (hb : ∀ w ∈ Q, Pledged s.log w reg b) : ∃ d y, b ≤ d ∧ Chosen vs s' reg d y ∧
      ((∃ w ∈ ids vs, Purged s'.log w reg d) ∨ ∀ rv, liveRef C ⟨d, y.1, y.2⟩ = some rv →
        ⟨reg.drop prefixRef.length, rv, false⟩ ∈ out) := by
  have h' := h.run hk hr
  obtain ⟨got, hg⟩ := hp.gathered h hk hr hscan
  rcases hg.mem_or_erased hlo hup hcut hQ hb with ⟨r, hmem, rfl⟩ | ⟨w, hw, d, y, hle, hv, hpur⟩
  · obtain ⟨hall, hout⟩ := entries_eq_some hent
    obtain ⟨row, hrow⟩ := hall r hmem
    obtain ⟨hch, habove⟩ := hp.row_chosen h hk hr hscan hmem hrow
    exact ⟨row.accepted, _, habove Q b hQ hb, hch, .inr fun rv hlive =>
      (hout _).2 ⟨r, hmem, row, rv, hrow, hlive, rfl⟩⟩
  · -- the purge was of a ballot that every voter accepted
    have hne := h'.voted_ne_bot hv
    refine ⟨d, y, hle, ⟨Q, hQ, fun u hu => ?_⟩, .inl ⟨w, hw, hpur⟩⟩
    obtain ⟨y', hy'⟩ := (h'.purged_sent hpur hne).2 u (hQ.subset u hu)
    exact h'.voted_unique hv hy' ▸ hy'

end page

/-- An entry of the snapshot is one of a page. -/
theorem mem_snapshot (h : Held vs s) (hk : ∀ a ∈ bs, Kept a) (hr : run step s bs = some s') :
    ∀ {ps : List PageIn} {after : Bytes} {out : List RefEntry}, Ran s s' bs after ps →
      refsSnapshot C ps = some out → prefixRef ≤ Acceptor.lower prefixRef after → ∀ x ∈ out,
      ∃ after p rows next out', PageRan s s' bs after p ∧ p.scanned = .page rows next ∧
        entries C p rows = some out' ∧ prefixRef ≤ Acceptor.lower prefixRef after ∧ x ∈ out'
  | [], after, out, _, hout, _, x, hx => by cases hout
  | p :: ps, after, out, hran, hout, hlo, x, hx => by
    rw [refsSnapshot] at hout
    split at hout
    · rename_i rows next hscan
      split at hout
      · cases hout
      · rename_i out' hent
        cases hout
        exact ⟨after, p, rows, none, out, hran.1, hscan, hent, hlo, hx⟩
      · rename_i out' k hent
        obtain ⟨rest, hrest, rfl⟩ := Option.map_eq_some_iff.1 hout
        rcases List.mem_append.1 hx with hx | hx
        · exact ⟨after, p, rows, some k, out', hran.1, hscan, hent, hlo, hx⟩
        · obtain ⟨got, hg⟩ := hran.1.gathered h hk hr hscan
          obtain ⟨hne, hcut⟩ := hg.cut_mem rfl
          refine mem_snapshot h hk hr (hran.2 rows k hscan) hrest ?_ x hx
          rw [Acceptor.lower, if_neg hne]
          exact (hlo.trans hcut).trans (LexOrder.lt_append (by simp)).le
    · cases hout

/-- Every register is on a page. -/
theorem exists_page (h : Held vs s) (hk : ∀ a ∈ bs, Kept a) (hr : run step s bs = some s') :
    ∀ {ps : List PageIn} {after : Bytes} {out : List RefEntry}, Ran s s' bs after ps →
      refsSnapshot C ps = some out → Acceptor.lower prefixRef after ≤ reg →
      ∃ after p rows next out', PageRan s s' bs after p ∧ p.scanned = .page rows next ∧
        entries C p rows = some out' ∧ Acceptor.lower prefixRef after ≤ reg ∧
        (∀ k ∈ next, reg ≤ k) ∧ ∀ x ∈ out', x ∈ out
  | [], after, out, _, hout, _ => by cases hout
  | p :: ps, after, out, hran, hout, hlo => by
    rw [refsSnapshot] at hout
    split at hout
    · rename_i rows next hscan
      split at hout
      · cases hout
      · rename_i out' hent
        cases hout
        exact ⟨after, p, rows, none, out, hran.1, hscan, hent, hlo, by simp, fun _ hx => hx⟩
      · rename_i out' k hent
        obtain ⟨rest, hrest, rfl⟩ := Option.map_eq_some_iff.1 hout
        by_cases hle : reg ≤ k
        · exact ⟨after, p, rows, some k, out', hran.1, hscan, hent, hlo, by simpa using hle,
            fun x hx => List.mem_append_left _ hx⟩
        · -- the next page begins right behind the cut
          obtain ⟨got, hg⟩ := hran.1.gathered h hk hr hscan
          have hnext : Acceptor.lower prefixRef k ≤ reg := by
            rw [Acceptor.lower, if_neg (hg.cut_mem rfl).1]
            exact LexOrder.snoc_bot_le.2 (not_le.1 hle)
          obtain ⟨after, p, rows, next, out'', h1, h2, h3, h4, h5, h6⟩ :=
            exists_page h hk hr (hran.2 rows k hscan) hrest hnext
          exact ⟨after, p, rows, next, out'', h1, h2, h3, h4, h5,
            fun x hx => List.mem_append_right _ (h6 x hx)⟩
    · cases hout

/-- No database is lost, and a purge is of a ballot without a live value, as both callers of
`TryPurge` see to. -/
def Reaps (C : Codecs ρ) (s : State σ ε) : Action σ ε → Bool
  | .wipe _ => false
  | .tryPurge _ _ _ reg b _ => s.proposals.all fun q =>
      q.reg ≠ reg || q.ballot ≠ b || (liveRef C ⟨q.ballot, q.value, q.hasValue⟩).isNone
  | _ => true

theorem Reaps.kept (h : Reaps C s act) : Kept act := by
  cases act <;> first | exact h | rfl

/-- Only registers without a live reference are purged. -/
def Reaped (C : Codecs ρ) (vs : List Voter) (s : State σ ε) : Prop :=
  ∀ w ∈ ids vs, ∀ m reg b, (w, m) ∈ s.sent → m.req = .purge reg b → b ≠ ⊥ →
    ∃ q ∈ s.proposals, q.reg = reg ∧ q.ballot = b ∧
      liveRef C ⟨q.ballot, q.value, q.hasValue⟩ = none

/-- A step purges no live reference. -/
theorem Reaped.step (hre : Reaped C vs s) (h : Inv vs s) (hs : Stepped s act s')
    (ha : Reaps C s act) : Reaped C vs s' := by
  intro w hw m reg b hm hreq hne
  cases hs with
  | turn =>
    rcases List.mem_append.1 hm with hm | hm
    · exact absurd hreq (outbox_ne_purge hm)
    · obtain ⟨q, hq, hrest⟩ := hre w hw m reg b hm hreq hne
      exact ⟨q, List.mem_append_right _ hq, hrest⟩
  | attempt =>
    rcases List.mem_append.1 hm with hm | hm
    · exact absurd hreq (outbox_ne_purge hm)
    · exact hre w hw m reg b hm hreq hne
  | ask hv hq =>
    rcases List.mem_cons.1 hm with hm | hm
    · cases hm
      exact absurd hreq hq.ne_purge
    · exact hre w hw m reg b hm hreq hne
  | @purge v cur pv reg' b' replies hv hcur hpv hnd hlog hb =>
    rcases List.mem_append.1 hm with hm | hm
    · obtain ⟨id, -, he⟩ := List.mem_map.1 hm
      cases he
      cases hreq
      obtain ⟨x, hx⟩ := h.purgeable hv hcur hnd hlog hb hne w hw
      obtain ⟨q, hq, rfl, rfl, -⟩ := h.voted_proposal hx
      have := List.all_eq_true.1 ha q hq
      exact ⟨q, hq, rfl, rfl, by simpa using this⟩
    · exact hre w hw m reg b hm hreq hne
  | deliver => exact hre w hw m reg b hm hreq hne
  | wipe => cases ha

/-- What a snapshot says of the registers. -/
structure Decides (C : Codecs ρ) (vs : List Voter) (s s' : State σ ε) (out : List RefEntry) :
    Prop where
  /-- Every entry is a chosen value. -/
  chosen : ∀ e ∈ out, ∃ b x, Chosen vs s' (refReg e.name) b x ∧
    liveRef C ⟨b, x.1, x.2⟩ = some e.value
  /-- A live value chosen before, and not superseded since, is listed. -/
  listed : ∀ name b x rv, 255 ∉ name → Chosen vs s (refReg name) b x →
    liveRef C ⟨b, x.1, x.2⟩ = some rv →
    (∀ b' x', Chosen vs s' (refReg name) b' x' → b < b' → x' = x) → ⟨name, rv, false⟩ ∈ out
  /-- A ballot that a majority had promised before is chosen, or one above it is. -/
  settled : ∀ name b Q, 255 ∉ name → Majority.IsQuorum (ids vs) Q →
    (∀ w ∈ Q, ∃ row, Promised s.log w (refReg name) b row) →
    (∃ x, Chosen vs s' (refReg name) b x) ∨ ∃ c x, b < c ∧ Chosen vs s' (refReg name) c x

theorem refReg_range {name : Bytes} (hname : 255 ∉ name) :
    Acceptor.lower prefixRef [] ≤ refReg name ∧ refReg name < Acceptor.upper prefixRef := by
  have hp : prefixRef <+: refReg name := List.prefix_append _ _
  have htop : (⊤ : Fin 256) ∉ refReg name := by
    rw [refReg, List.mem_append]
    rintro (h | h)
    · exact absurd h (by decide)
    · exact hname h
  exact LexOrder.mem_range_of_prefix (t := [255, 255, 255]) hp htop

section decides

variable (h : Held vs s) (hk : ∀ a ∈ bs, Kept a) (hr : run step s bs = some s')
  (hran : Ran s s' bs [] ps) (hout : refsSnapshot C ps = some out)
include h hk hr hran hout

theorem entry_chosen {e : RefEntry} (he : e ∈ out) : ∃ b x, Chosen vs s' (refReg e.name) b x ∧
    liveRef C ⟨b, x.1, x.2⟩ = some e.value := by
  obtain ⟨after, p, rows, next, out', hp, hscan, hent, hfirst, he⟩ :=
    mem_snapshot h hk hr hran hout le_rfl e he
  obtain ⟨r, hmem, row, rv, hrow, hlive, rfl⟩ := ((entries_eq_some hent).2 e).1 he
  obtain ⟨hch, -⟩ := hp.row_chosen h hk hr hscan hmem hrow
  obtain ⟨got, hg⟩ := hp.gathered h hk hr hscan
  obtain ⟨-, -, -, -, -, hlo, hup, -⟩ := hg.held hmem
  have hreg : refReg (r.reg.drop prefixRef.length) = r.reg :=
    reg_eq (LexOrder.prefix_of_mem_range (hfirst.trans hlo) hup)
  exact ⟨_, _, hreg.symm ▸ hch, hlive⟩

theorem name_decided {name : Bytes} (hname : 255 ∉ name) (hQ : Majority.IsQuorum (ids vs) Q)
    (hb : ∀ w ∈ Q, Pledged s.log w (refReg name) b) :
    ∃ d y, b ≤ d ∧ Chosen vs s' (refReg name) d y ∧
      ((∃ w ∈ ids vs, Purged s'.log w (refReg name) d) ∨
        ∀ rv, liveRef C ⟨d, y.1, y.2⟩ = some rv → ⟨name, rv, false⟩ ∈ out) := by
  obtain ⟨hlo, hup⟩ := refReg_range hname
  obtain ⟨after, p, rows, next, out', hp, hscan, hent, hlo, hcut, hsub⟩ :=
    exists_page h hk hr hran hout hlo
  obtain ⟨d, y, hle, hch, hdec⟩ := hp.decides h hk hr hscan hent hlo hup hcut hQ hb
  refine ⟨d, y, hle, hch, hdec.imp id fun hlist rv hlive => ?_⟩
  have := hsub _ (hlist rv hlive)
  rwa [refReg, prefixRef, List.drop_left] at this

end decides

/-- Over every run of a fixed voter set without a lost database, with proposals, purges of
tombstones and lost messages at any moment: a snapshot that returns lists chosen values only,
misses no live reference that stays, and leaves no proposal behind that could still become a
reference's value. -/
theorem snapshot_decides (h₀ : Initial s₀) (hf : Fixed vs s₀)
    (ha : Along step (fun s a => Reaps C s a) s₀ (as ++ bs)) (hr : run step s₀ as = some s)
    (hr' : run step s bs = some s') (hran : Ran s s' bs [] ps)
    (hout : refsSnapshot C ps = some out) : Decides C vs s s' out := by
  have hrun := run_append.2 ⟨s, hr, hr'⟩
  have hkept : ∀ a ∈ as ++ bs, Kept a := 
    Along.forall (P := fun a => Kept a) (fun _ _ => Reaps.kept) ha hrun
  have hk : ∀ a ∈ bs, Kept a := fun a ha => hkept a (List.mem_append_right _ ha)
  have h := (Held.init h₀ hf).run (fun a ha => hkept a (List.mem_append_left _ ha)) hr
  have h' := h.run hk hr'
  have hreaped : Held vs s' ∧ Reaped C vs s' := by
    refine invariant_along (P := fun s => Held vs s ∧ Reaped C vs s) (fun s a s' h ha hs => ?_)
      (as ++ bs) ⟨.init h₀ hf, by simp [Reaped, h₀.sent]⟩ ha hrun
    have hs := step_stepped hs
    exact ⟨h.1.step hs (Reaps.kept ha), h.2.step h.1.toInv hs ha⟩
  refine ⟨fun e he => entry_chosen h hk hr' hran hout he,
    fun name b x rv hname hc hlive hstay => ?_, fun name b Q hname hQ hprom => ?_⟩
  · obtain ⟨Q, hQ, hv⟩ := hc
    obtain ⟨d, y, hle, hch, hdec⟩ := name_decided h hk hr' hran hout hname hQ
      fun w hw => (hv w hw).pledged
    have hlog : ∀ e ∈ s.log, e ∈ s'.log := fun e he => log_run hr' ▸ List.mem_append_right _ he
    -- what is chosen at or above the ballot is its value
    obtain rfl : y = x := by
      rcases hle.eq_or_lt with rfl | hlt
      · obtain ⟨w, hw⟩ := hQ.nonempty
        obtain ⟨u, -, hu⟩ := hch.voted
        exact h'.voted_unique hu ((hv w hw).mono hlog)
      · exact hstay d y hch hlt
    rcases hdec with ⟨w, hw, e, he, hn, hreq⟩ | hlist
    · obtain ⟨u, -, hu⟩ := hch.voted
      obtain ⟨q, hq, hqreg, rfl, hdead⟩ := hreaped.2 w hw e.msg _ d (hn ▸ h'.log e he) hreq
        (h'.voted_ne_bot hu)
      obtain ⟨q', hq', -, hqb, rfl⟩ := h'.voted_proposal hu
      obtain rfl := h'.unique q' hq' q hq hqb
      exact absurd (hlive.symm.trans hdead) (by simp)
    · exact hlist rv hlive
  · obtain ⟨d, y, hle, hch, -⟩ := name_decided h hk hr' hran hout hname hQ
      fun w hw => (hprom w hw).choose_spec.pledged
    rcases hle.eq_or_lt with rfl | hlt
    · exact .inl ⟨y, hch⟩
    · exact .inr ⟨d, y, hlt, hch⟩

instance {log : List Event} : Decidable (PromisedTo log v reg b w row) :=
  List.instDecidableMemOfLawfulBEq _ _

namespace Trio

open Dstore.Trio

/-- A put that reaches one voter. -/
def put : List (Action Vars CatalogErr) :=
  [.propose 1 1 (refReg [1]) (refPutFn refCodec [9] { versioned := true } id) 0 {},
    .propose 2 2 (refReg [1]) (refPutFn refCodec [8] { force := true } id) 0 {}] ++
  prepare 1 (refReg [1]) ⟨1, 1⟩ [(1, {}), (2, {})] ++
  accept 1 (refReg [1]) ⟨1, 1⟩ (written 9 ⟨1, 1⟩) [2]

/-- Another one on top, which reaches two. -/
def putOver : List (Action Vars CatalogErr) :=
  put ++ prepare 2 (refReg [1]) ⟨2, 2⟩ [(2, ⟨⟨1, 1⟩, written 9 ⟨1, 1⟩, true⟩), (3, {})] ++
  accept 2 (refReg [1]) ⟨2, 2⟩ (written 8 ⟨2, 2⟩) [2, 3]

/-- Two voters are scanned. -/
def scanned : List (Action Vars CatalogErr) :=
  [2, 3].flatMap fun w =>
    [.scan w view prefixRef [] 10000, .deliver w ⟨1, 1, .scan prefixRef [] 10000⟩ 0]

/-- The scan, and a `Settle` of the undecided register. -/
def settling : List (Action Vars CatalogErr) :=
  scanned ++ [.propose 3 3 (refReg [1]) identity 0 {}] ++
  prepare 3 (refReg [1]) ⟨2, 3⟩ [(2, ⟨⟨1, 1⟩, written 9 ⟨1, 1⟩, true⟩), (3, {})] ++
  accept 3 (refReg [1]) ⟨2, 3⟩ (written 9 ⟨1, 1⟩) [2, 3]

/-- The page of one voter. -/
def answer (b : Ballot) (value : Bytes) : Option Answer :=
  some ⟨1, 1, .scanReply [⟨refReg [1], b, b, value, true⟩] false (refReg [1])⟩

/-- A page whose one register had to be settled. -/
def undecided : PageIn where
  view := view
  replies := [(2, answer ⟨1, 1⟩ (written 9 ⟨1, 1⟩)), (3, some ⟨1, 1, .scanReply [] false []⟩)]
  settled := [(refReg [1], ⟨⟨2, 3⟩, written 9 ⟨1, 1⟩, true⟩)]

/-- A page whose one register is decided. -/
def decided : PageIn where
  view := view
  replies := [2, 3].map fun w => (w, answer ⟨2, 2⟩ (written 8 ⟨2, 2⟩))
  settled := []

end Trio

/-- A put accepted by one voter is settled, and listed. -/
theorem snapshot_decides_undecided : ∃ s s',
    run step (Dstore.Trio.start Vars CatalogErr) Trio.put = some s ∧
    run step s Trio.settling = some s' ∧ Ran s s' Trio.settling [] [Trio.undecided] ∧
    ¬ Chosen Dstore.Trio.view.voters s (refReg [1]) ⟨1, 1⟩ (Dstore.Trio.written 9 ⟨1, 1⟩, true) ∧
    refsSnapshot Alone.codecs [Trio.undecided] =
      some [⟨[1], { record := [9], version := Ballot.bytes ⟨1, 1⟩ }, false⟩] ∧
    Decides Alone.codecs Dstore.Trio.view.voters s s'
      [⟨[1], { record := [9], version := Ballot.bytes ⟨1, 1⟩ }, false⟩] := by
  obtain ⟨s, hs, hopen, s', hs', hview, hasked, c, hc, hdone⟩ :
      ∃ s ∈ run step (Dstore.Trio.start Vars CatalogErr) Trio.put,
        ¬ Chosen Dstore.Trio.view.voters s (refReg [1]) ⟨1, 1⟩
          (Dstore.Trio.written 9 ⟨1, 1⟩, true) ∧
        ∃ s' ∈ run step s Trio.settling, Dstore.Trio.view ∈ s'.views ∧
          Asked s s' Dstore.Trio.view (.scan prefixRef [] 10000) Trio.undecided.replies ∧
          ∃ c ∈ s'.calls 3, c.phase = .done ⟨⟨2, 3⟩, Dstore.Trio.written 9 ⟨1, 1⟩, true⟩ none := by
    decide +kernel
  have hran : Ran s s' Trio.settling [] [Trio.undecided] := by
    refine ⟨⟨hview, hasked, fun e he => ?_⟩, fun _ _ _ => trivial⟩
    rw [List.mem_singleton.1 he]
    exact ⟨3, 3, {}, c, _, by simp [Trio.settling], hc, hdone, rfl⟩
  have hout : refsSnapshot Alone.codecs [Trio.undecided] =
      some [⟨[1], { record := [9], version := Ballot.bytes ⟨1, 1⟩ }, false⟩] := by
    decide +kernel
  exact ⟨s, s', hs, hs', hran, hopen, hout, snapshot_decides (Dstore.Trio.start_initial _ _)
    (Dstore.Trio.start_fixed _ _) (by decide +kernel) hs hs' hran hout⟩

/-- A proposal that had a majority's promises before the snapshot began, and whose value was not
chosen when it returned, is chosen afterwards. -/
theorem superseded_chosen_late :
    ∃ s ∈ run step (Dstore.Trio.start Vars CatalogErr) Trio.putOver,
      (∀ w ∈ [1, 2], PromisedTo s.log Dstore.Trio.view (refReg [1]) ⟨1, 1⟩ w {}) ∧
      ∃ s' ∈ run step s Trio.scanned,
        Asked s s' Dstore.Trio.view (.scan prefixRef [] 10000) Trio.decided.replies ∧
        refsSnapshot Alone.codecs [Trio.decided] =
          some [⟨[1], { record := [8], version := Ballot.bytes ⟨2, 2⟩ }, false⟩] ∧
        ¬ Chosen Dstore.Trio.view.voters s' (refReg [1]) ⟨1, 1⟩
          (Dstore.Trio.written 9 ⟨1, 1⟩, true) ∧
        ∃ t ∈ run step s' [.deliver 1 ⟨1, 1, .accept (refReg [1]) ⟨1, 1⟩
            (Dstore.Trio.written 9 ⟨1, 1⟩) true 0⟩ 0],
          Chosen Dstore.Trio.view.voters t (refReg [1]) ⟨1, 1⟩
            (Dstore.Trio.written 9 ⟨1, 1⟩, true) := by
  decide +kernel

end Dstore.Snapshot

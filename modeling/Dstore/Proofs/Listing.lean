import Dstore.Listing
import Dstore.Proofs.Merge

/-!
# Listings are complete, unless a page has only dead rows

A page of the merge has, for every register up to the cut, the rows of all voters heard, a majority,
so that the highest of these is the value the register holds. Both loops go on only behind a page
with an entry: a page of tombstones with more behind it ends them.
-/

namespace Dstore.Listing

open Majority

variable {ρ : Type} {C : Codecs ρ} {v : View} {stores : NodeID → Acceptor} {truth : KV Bytes Row}
  {heard : List NodeID} {pre after : Bytes} {limit : ℤ}

/-- A catalog at rest: every voter serves; a register's value is held by a majority, and every row
of a voter is that value, an older one, or none at all; and names are proper. -/
structure Quiescent (v : View) (stores : NodeID → Acceptor) (truth : KV Bytes Row) : Prop where
  serves : ∀ id ∈ v.voterIDs, (stores id).refuseIfForgetful = none
  chosen : ∀ reg row, truth.get reg = some row → row.accepted ≠ ⊥ ∧
    ∃ Q, IsQuorum v.voterIDs Q ∧ ∀ id ∈ Q, ((stores id).row reg).toRow = row
  latest : ∀ id ∈ v.voterIDs, ∀ reg,
    ((stores id).row reg).accepted = ⊥ ∧ ((stores id).row reg).hasValue = false ∨
      ∃ row, truth.get reg = some row ∧
        (((stores id).row reg).accepted < row.accepted ∨ ((stores id).row reg).toRow = row)
  names : ∀ id ∈ v.voterIDs, ∀ reg r, (stores id).rows.get reg = some r → prefixRef <+: reg →
    reg ≠ prefixRef ∧ 255 ∉ reg

/-- The voters heard for a page: distinct ones, and a majority. -/
structure Heard (v : View) (heard : List NodeID) : Prop where
  nodup : heard.Nodup
  voters : ∀ id ∈ heard, id ∈ v.voterIDs
  quorum : v.quorum ≤ heard.length

/-- The live references with the prefix, with their names. -/
def live (C : Codecs ρ) (truth : KV Bytes Row) (pre : Bytes) : List (Bytes × RefValue) :=
  truth.entries.filterMap fun e =>
    if (prefixRef ++ pre).isPrefixOf e.1 then
      (liveRef C e.2).map fun rv => (e.1.drop prefixRef.length, rv)
    else none

/-- What the node sends of a live reference, if its record decodes. -/
def info (C : Codecs ρ) (x : Bytes × RefValue) : Option (RefInfo ρ) :=
  (C.decode x.2.record).map fun r => ⟨x.1, r, x.2.version⟩

/-- What a reference adds to a page. -/
def refSize (C : Codecs ρ) (r : RefInfo ρ) : ℕ := r.name.length + 32 + 40 + C.userLen r.record + 16

/-- The rows of a voter that are left behind the name `after`: those with the prefix. -/
def rest (a : Acceptor) (pre : Bytes) (after : Option Bytes) : List (Bytes × AcceptorRow) :=
  a.rows.entries.filter fun e =>
    (prefixRef ++ pre).isPrefixOf e.1 ∧ ∀ k ∈ after, k < e.1.drop prefixRef.length

/-- So many rows fill a page of a voter. -/
def full (limit : ℕ) (rows : List (Bytes × AcceptorRow)) : Bool :=
  limit ≤ rows.length ∨ maxPageBytes ≤ (rows.map Acceptor.rowSize).sum

/-- The name at which the voter's next page is full, where it has more rows behind it. -/
def pageEnd (a : Acceptor) (pre : Bytes) (limit : ℤ) (after : Option Bytes) : Option Bytes :=
  Cursor.fillsAt (full (Acceptor.rowLimit limit)) (fun e => e.1.drop prefixRef.length)
    (rest a pre after) (rest a pre after).length

/-- The first name at which a voter that is heard has its next page full. -/
def stretchEnd (stores : NodeID → Acceptor) (heard : List NodeID) (pre : Bytes) (limit : ℤ)
    (after : Option Bytes) : Option Bytes :=
  (heard.filterMap fun id => pageEnd (stores id) pre limit after).min?

/-- Where the next reply of the node ends: at the reference that makes it too large, or where the
stretch does. -/
def replyEnd (C : Codecs ρ) (truth : KV Bytes Row) (stores : NodeID → Acceptor)
    (heard : List NodeID) (pre : Bytes) (limit : ℤ) (after : Option Bytes) : Option Bytes :=
  let stretch := stretchEnd stores heard pre limit after
  let refs := Cursor.between RefInfo.name ((live C truth pre).filterMap (info C)) after stretch
  (Cursor.fillsAt (fun l => maxPageBytes < (l.map (refSize C)).sum) RefInfo.name refs
    (refs.length + 1)).or stretch

variable {reg : Bytes} {x : Bytes × RefValue}

variable {k : Bytes} {rows : KV Bytes AcceptorRow}

theorem Heard.isQuorum (h : Heard v heard) : IsQuorum v.voterIDs heard.toFinset := by
  refine ⟨fun id hid => h.voters id (by simpa using hid), ?_⟩
  rw [← v.quorum_eq, List.toFinset_card_of_nodup h.nodup]
  exact h.quorum

/-! ## One page of the catalog -/

theorem pages_ask (hserves : ∀ id ∈ heard, (stores id).refuseIfForgetful = none) :
    pages v (ask v stores heard pre after limit) =
      .ok ((heard.map stores).map (pageOf pre after limit)) := by
  induction heard with
  | nil => rfl
  | cons id heard ih =>
    have hscan := Acceptor.scan_eq pre after limit (hserves id (by simp))
    have ih := ih fun i hi => hserves i (by simp [hi])
    unfold ask at ih ⊢
    rw [List.map_cons, pages, hscan]
    simp only [classify, ne_eq, not_true_eq_false, or_self, if_false, ih, Except.map]
    rfl

theorem scan_ask (hq : Quiescent v stores truth) (hh : Heard v heard) :
    scan v (ask v stores heard pre after limit) =
      .page (mergedRows heard.length
        ((mergeInput ((heard.map stores).map (pageOf pre after limit))).foldl mergeRow .empty))
        (cut ((heard.map stores).map (pageOf pre after limit))) := by
  unfold scan
  rw [pages_ask fun id hid => hq.serves id (hh.voters id hid)]
  simp [hh.quorum]

/-- The rows that the merge of a page is given. -/
def input (stores : NodeID → Acceptor) (heard : List NodeID) (pre after : Bytes) (limit : ℤ) :
    List ScanRow :=
  mergeInput ((heard.map stores).map (pageOf pre after limit))

theorem exists_input (hq : Quiescent v stores truth) (hh : Heard v heard) (hpre : pre ≠ [])
    {row : Row} (htruth : truth.get reg = some row) (hlo : Acceptor.lower pre after ≤ reg)
    (hup : reg < Acceptor.upper pre)
    (hcut : ∀ k ∈ cut ((heard.map stores).map (pageOf pre after limit)), reg ≤ k) :
    ∃ sr ∈ input stores heard pre after limit, sr.reg = reg ∧ sr.accepted = row.accepted := by
  obtain ⟨hne, Q, hQ, hheld⟩ := hq.chosen reg row htruth
  obtain ⟨j, hjQ, hj⟩ := hQ.exists_mem hh.isQuorum
  have hjrow := hheld j hjQ
  rcases hgj : (stores j).rows.get reg with _ | rj
  · simp only [Acceptor.row, hgj, Option.getD_none, AcceptorRow.toRow] at hjrow
    exact absurd (by rw [← hjrow]) hne
  · simp only [Acceptor.row, hgj, Option.getD_some, AcceptorRow.toRow] at hjrow
    refine ⟨⟨reg, rj.promised, rj.accepted, rj.value, rj.hasValue⟩, ?_, rfl, by rw [← hjrow]⟩
    exact (mem_mergeInput (named_of_isPrefix hpre)).2
      ⟨⟨stores j, List.mem_map_of_mem (by simpa using hj), rj, hgj,
      hlo, hup, rfl⟩, hcut⟩

/-- The merge of a quorum's rows is the decided row. -/
theorem row_of_merge (hq : Quiescent v stores truth) (hh : Heard v heard) (hpre : pre ≠ [])
    {a : Merge} (ha : MergeOk (input stores heard pre after limit) reg a) :
    (truth.get reg = none → a.row.hasValue = false) ∧
      ∀ row, truth.get reg = some row → a.row = row := by
  obtain ⟨sr, hsr, rfl, hrow⟩ := ha.source
  obtain ⟨⟨ac, hac, r, hget, hlo, hup, he⟩, hcut⟩ := (mem_mergeInput (named_of_isPrefix hpre)).1 hsr
  obtain ⟨id, hid, rfl⟩ := List.mem_map.1 hac
  have hstore : ((stores id).row sr.reg).toRow = a.row := by
    rw [hrow, he]
    simp [Acceptor.row, hget, AcceptorRow.toRow]
  have htop : ∀ row, truth.get sr.reg = some row → row.accepted ≤ a.row.accepted := by
    intro row htruth
    obtain ⟨top, hmem, hreg, hacc⟩ := exists_input hq hh hpre htruth hlo hup hcut
    exact hacc ▸ ha.top top hmem hreg
  rcases hq.latest id (hh.voters id hid) sr.reg with ⟨hbot, hno⟩ | ⟨row, htruth, hold | hsame⟩
  · refine ⟨fun _ => by rw [← hstore]; exact hno, fun row htruth => ?_⟩
    have hle := htop row htruth
    rw [← hstore] at hle
    exact absurd (le_bot_iff.1 (hbot ▸ hle)) (hq.chosen _ _ htruth).1
  · have hle := htop row htruth
    rw [← hstore] at hle
    exact absurd hle hold.not_ge
  · refine ⟨fun hnone => by simp [htruth] at hnone, fun row' htruth' => ?_⟩
    rw [← hstore, hsame]
    exact Option.some.inj (htruth.symm.trans htruth')

/-- What the scan makes of them. -/
def merged (stores : NodeID → Acceptor) (heard : List NodeID) (pre after : Bytes) (limit : ℤ) :
    List MergedRow :=
  mergedRows heard.length ((input stores heard pre after limit).foldl mergeRow .empty)

/-- The merged page has the decided rows up to its cut. -/
theorem mem_merged (hq : Quiescent v stores truth) (hh : Heard v heard) (hpre : pre ≠ [])
    {row : Row} (hval : row.hasValue) :
    (∃ r ∈ merged stores heard pre after limit, r.reg = reg ∧ r.row = row) ↔
      truth.get reg = some row ∧ Acceptor.lower pre after ≤ reg ∧ reg < Acceptor.upper pre ∧
        ∀ k ∈ cut ((heard.map stores).map (pageOf pre after limit)), reg ≤ k := by
  constructor
  · rintro ⟨r, hr, rfl, rfl⟩
    obtain ⟨a, ha, hrow, -⟩ := mem_mergedRows hr
    obtain ⟨sr, hsr, hreg, -⟩ := ha.source
    obtain ⟨⟨ac, -, r', -, hlo, hup, -⟩, hcut⟩ := (mem_mergeInput (named_of_isPrefix hpre)).1 hsr
    rw [hreg] at hlo hup hcut
    refine ⟨?_, hlo, hup, hcut⟩
    rcases htruth : truth.get r.reg with _ | row
    · have hno := (row_of_merge hq hh hpre ha).1 htruth
      rw [hrow, hno] at hval
      cases hval
    · rw [hrow, (row_of_merge hq hh hpre ha).2 row htruth]
  · rintro ⟨htruth, hlo, hup, hcut⟩
    obtain ⟨sr, hsr, hreg, -⟩ := exists_input hq hh hpre htruth hlo hup hcut
    obtain ⟨r, hr, hr'⟩ := exists_mergedRow heard.length hsr
    obtain ⟨a, ha, hrow, -⟩ := mem_mergedRows hr
    have hreg' : r.reg = reg := hr'.trans hreg
    rw [hreg'] at ha
    exact ⟨r, hr, hreg', hrow.trans ((row_of_merge hq hh hpre ha).2 row htruth)⟩

/-! ## Names and registers -/

theorem Quiescent.name_ok (hq : Quiescent v stores truth) {row : Row}
    (htruth : truth.get reg = some row) (hp : prefixRef <+: reg) :
    reg ≠ prefixRef ∧ 255 ∉ reg := by
  obtain ⟨hne, Q, hQ, hheld⟩ := hq.chosen reg row htruth
  obtain ⟨j, hj⟩ := hQ.nonempty
  have hjrow := hheld j hj
  rcases hgj : (stores j).rows.get reg with _ | rj
  · simp only [Acceptor.row, hgj, Option.getD_none, AcceptorRow.toRow] at hjrow
    exact absurd (by rw [← hjrow]) hne
  · exact hq.names j (hQ.subset j hj) reg rj hgj hp

theorem reg_eq (hp : prefixRef <+: reg) :
    refReg (reg.drop prefixRef.length) = reg := by
  obtain ⟨t, rfl⟩ := hp
  rfl

theorem prefix_of_append (hp : prefixRef ++ pre <+: reg) : prefixRef <+: reg :=
  (List.prefix_append _ _).trans hp

theorem drop_lt_drop {r s : Bytes} (hr : prefixRef <+: r) (hs : prefixRef <+: s) :
    r.drop prefixRef.length < s.drop prefixRef.length ↔ r < s := by
  obtain ⟨r, rfl⟩ := hr
  obtain ⟨s, rfl⟩ := hs
  simp only [List.drop_left, LexOrder.append_lt_append]

theorem drop_le_drop {r s : Bytes} (hr : prefixRef <+: r) (hs : prefixRef <+: s) :
    r.drop prefixRef.length ≤ s.drop prefixRef.length ↔ r ≤ s := by
  rw [← not_lt, drop_lt_drop hs hr, not_lt]

/-- The register of a cursor. -/
def afterReg (after : Bytes) : Bytes := if after = [] then [] else refReg after

/-- The scanned range is the prefix behind the cursor. -/
theorem range_iff (hafter : after = [] ∨ pre <+: after) (hname : prefixRef <+: reg → 255 ∉ reg) :
    Acceptor.lower (prefixRef ++ pre) (afterReg after) ≤ reg ∧
        reg < Acceptor.upper (prefixRef ++ pre) ↔
      prefixRef ++ pre <+: reg ∧ ∀ k ∈ cursor after, k < reg.drop prefixRef.length := by
  have hcur : afterReg after = ((cursor after).map refReg).getD [] := by
    unfold afterReg cursor
    split_ifs <;> rfl
  have hok : ∀ k ∈ (cursor after).map refReg, k ≠ [] ∧ prefixRef ++ pre <+: k := by
    intro k hk
    obtain ⟨a, ha, rfl⟩ := Option.mem_map.1 hk
    by_cases hne : after = []
    · simp [cursor, hne] at ha
    · rw [cursor, if_neg hne, Option.mem_some_iff] at ha
      subst ha
      exact ⟨by simp [refReg], (List.prefix_append_right_inj _).2 (hafter.resolve_left hne)⟩
  rw [hcur, Acceptor.range_iff hok fun hp => hname (prefix_of_append hp)]
  refine and_congr_right fun hp => ?_
  simp only [Option.mem_map, forall_exists_index, and_imp, forall_apply_eq_imp_iff₂]
  refine forall₂_congr fun k _ => ?_
  have := drop_lt_drop (r := refReg k) (List.prefix_append _ _) (prefix_of_append hp)
  simpa [refReg, prefixRef] using this.symm

/-! ## Pages are cut out of the live references -/

theorem prefix_of_mem_live : x ∈ live C truth pre ↔
    ∃ row, truth.get (refReg x.1) = some row ∧ pre <+: x.1 ∧ liveRef C row = some x.2 := by
  unfold live
  rw [List.mem_filterMap]
  constructor
  · rintro ⟨⟨reg, row⟩, hmem, hx⟩
    split_ifs at hx with hp
    obtain ⟨rv, hrv, rfl⟩ := Option.map_eq_some_iff.1 hx
    rw [List.isPrefixOf_iff_prefix] at hp
    obtain ⟨t, rfl⟩ := hp
    refine ⟨row, KV.get_eq_some.2 ?_, ?_, hrv⟩
    · simpa [refReg, prefixRef] using hmem
    · simp [prefixRef]
  · rintro ⟨row, hget, hp, hlive⟩
    refine ⟨(refReg x.1, row), KV.get_eq_some.1 hget, ?_⟩
    have hpre : (prefixRef ++ pre).isPrefixOf (refReg x.1) = true :=
      List.isPrefixOf_iff_prefix.2 ((List.prefix_append_right_inj _).2 hp)
    rw [if_pos hpre, hlive]
    rfl

theorem live_sorted (C : Codecs ρ) (truth : KV Bytes Row) (pre : Bytes) :
    (live C truth pre).Pairwise fun x y => x.1 < y.1 := by
  refine List.Pairwise.filterMap _ ?_ truth.sorted
  intro e e' hlt x hx y hy
  split_ifs at hx hy with hp hp'
  obtain ⟨rv, -, rfl⟩ := Option.map_eq_some_iff.1 hx
  obtain ⟨rv', -, rfl⟩ := Option.map_eq_some_iff.1 hy
  rw [List.isPrefixOf_iff_prefix] at hp hp'
  exact (drop_lt_drop (prefix_of_append hp) (prefix_of_append hp')).2 hlt

theorem liveRef_hasValue {row : Row} {rv : RefValue} (h : liveRef C row = some rv) :
    row.hasValue := by
  unfold liveRef at h
  split_ifs at h with hv
  exact hv

/-- The cut is a cursor that moves on. -/
theorem cut_ok (hq : Quiescent v stores truth) (hh : Heard v heard)
    (hafter : after = [] ∨ pre <+: after)
    (hk : k ∈ cut ((heard.map stores).map (pageOf (prefixRef ++ pre) (afterReg after) limit))) :
    prefixRef ++ pre <+: k ∧ k.drop prefixRef.length ≠ [] ∧
      ∀ j ∈ cursor after, j < k.drop prefixRef.length := by
  obtain ⟨p, hp, hm, rfl, -⟩ := (cut_spec _).2 k hk
  obtain ⟨a, ha, rfl⟩ := List.mem_map.1 hp
  obtain ⟨id, hid, rfl⟩ := List.mem_map.1 ha
  obtain ⟨hrows, -, hlast⟩ :=
    (stores id).scanPage_covers (prefixRef ++ pre) (afterReg after) limit
  obtain ⟨sr, hsr, hreg⟩ := List.mem_map.1 (hlast hm)
  obtain ⟨r, hget, hlo, hup, -⟩ := hrows sr hsr
  have hnames := hq.names id (hh.voters id hid) sr.reg r hget
  obtain ⟨hpre, hlt⟩ := (range_iff hafter fun hp => (hnames hp).2).1 ⟨hlo, hup⟩
  have hnext : (pageOf (prefixRef ++ pre) (afterReg after) limit (stores id)).next = sr.reg :=
    hreg.symm
  rw [hnext]
  refine ⟨hpre, fun hnil => (hnames (prefix_of_append hpre)).1 ?_, hlt⟩
  rw [← reg_eq (prefix_of_append hpre), hnil]
  rfl

/-- An acceptor's page ends where it is full. -/
theorem page_fillsAt {n : ℕ} (hpos : 0 < n) (es : List (Bytes × AcceptorRow)) :
    Cursor.fillsAt (full n) (fun e => e.1.drop prefixRef.length) es es.length =
      if (Acceptor.page n es 0 0).2 then
        some ((Acceptor.lastReg (Acceptor.page n es 0 0).1).drop prefixRef.length)
      else none := by
  obtain ⟨m, hrows, hmore, -, hm, hbelow, hfull⟩ := Acceptor.page_eq_take n es 0 0
  simp only [Nat.zero_add] at hbelow hfull
  have hlen : ∀ j ≤ es.length, (es.take j).length = j := fun j hj => by
    rw [List.length_take, min_eq_left hj]
  have hnot : ∀ j < m, j ≤ es.length → full n (es.take j) = false := fun j hj hle => by
    simpa [full, hlen j hle] using hbelow j hj
  by_cases hlt : m < es.length
  · have hne : es.take m ≠ [] := by
      have := hm hpos (by decide) (List.ne_nil_of_length_pos (by omega))
      exact List.ne_nil_of_length_pos (by rw [hlen m hlt.le]; exact this)
    have hlast := List.getLast?_eq_some_getLast hne
    have hat : full n (es.take m) = true := by
      rw [full, hlen m hlt.le, decide_eq_true_eq]
      exact hfull hlt
    rw [if_pos (hmore.2 hlt), Cursor.fillsAt_eq_some hlt hat
      (fun j hj => hnot j hj (hj.trans hlt).le) hlast, hrows, Acceptor.lastReg,
      List.getLast?_map, hlast]
    rfl
  · rw [if_neg (fun h => hlt (hmore.1 h)),
      Cursor.fillsAt_eq_none fun j hj => hnot j (by omega) hj.le]

theorem rest_eq (hq : Quiescent v stores truth) {id : NodeID} (hid : id ∈ v.voterIDs)
    (hafter : after = [] ∨ pre <+: after) :
    (stores id).rows.scan (Acceptor.lower (prefixRef ++ pre) (afterReg after))
      (Acceptor.upper (prefixRef ++ pre)) = rest (stores id) pre (cursor after) := by
  refine List.filter_congr fun e he => ?_
  rw [decide_eq_decide, List.isPrefixOf_iff_prefix]
  exact range_iff hafter fun hp => (hq.names id hid e.1 e.2 (KV.get_eq_some.2 he) hp).2

theorem pageEnd_eq (hq : Quiescent v stores truth) {id : NodeID} (hid : id ∈ v.voterIDs)
    (hafter : after = [] ∨ pre <+: after) (limit : ℤ) :
    pageEnd (stores id) pre limit (cursor after) =
      if (pageOf (prefixRef ++ pre) (afterReg after) limit (stores id)).more then
        some ((pageOf (prefixRef ++ pre) (afterReg after) limit (stores id)).next.drop
          prefixRef.length) else none := by
  rw [pageEnd, ← rest_eq hq hid hafter]
  exact page_fillsAt (Acceptor.rowLimit_pos limit) _

/-- The cut is where the first of the pages is full. -/
theorem cut_eq (hq : Quiescent v stores truth) (hh : Heard v heard)
    (hafter : after = [] ∨ pre <+: after) :
    (cut ((heard.map stores).map (pageOf (prefixRef ++ pre) (afterReg after) limit))).map
      (List.drop prefixRef.length) = stretchEnd stores heard pre limit (cursor after) := by
  obtain ⟨hle, hmem⟩ := cut_spec
    ((heard.map stores).map (pageOf (prefixRef ++ pre) (afterReg after) limit))
  have hpage : ∀ id ∈ heard, pageOf (prefixRef ++ pre) (afterReg after) limit (stores id) ∈
      (heard.map stores).map (pageOf (prefixRef ++ pre) (afterReg after) limit) :=
    fun id hid => List.mem_map_of_mem (List.mem_map_of_mem hid)
  -- a full page ends at one of the references' registers
  have hnext : ∀ id ∈ heard,
      (pageOf (prefixRef ++ pre) (afterReg after) limit (stores id)).more = true →
      prefixRef <+: (pageOf (prefixRef ++ pre) (afterReg after) limit (stores id)).next := by
    intro id hid hm
    obtain ⟨hrows, -, hlast⟩ :=
      (stores id).scanPage_covers (prefixRef ++ pre) (afterReg after) limit
    obtain ⟨sr, hsr, hreg⟩ := List.mem_map.1 (hlast hm)
    obtain ⟨r, hget, hlo, hup, -⟩ := hrows sr hsr
    have hnames := hq.names id (hh.voters id hid) sr.reg r hget
    have hpre := ((range_iff hafter fun hp => (hnames hp).2).1 ⟨hlo, hup⟩).1
    exact (prefix_of_append hpre).trans (by rw [hreg]; rfl)
  have hends : ∀ k, k ∈ (heard.filterMap fun id => pageEnd (stores id) pre limit (cursor after)) ↔
      ∃ id ∈ heard, (pageOf (prefixRef ++ pre) (afterReg after) limit (stores id)).more = true ∧
        (pageOf (prefixRef ++ pre) (afterReg after) limit (stores id)).next.drop
          prefixRef.length = k := by
    intro k
    rw [List.mem_filterMap]
    refine exists_congr fun id => and_congr_right fun hid => ?_
    rw [pageEnd_eq hq (hh.voters id hid) hafter]
    split_ifs with hm <;> simp [hm]
  have hne : ∀ {k : Bytes}, prefixRef <+: k → k ≠ [] := by
    rintro k ⟨t, rfl⟩
    simp [prefixRef]
  rcases hc : cut ((heard.map stores).map (pageOf (prefixRef ++ pre) (afterReg after) limit))
    with _ | k
  · rw [hc] at hle
    rw [Option.map_none, eq_comm, stretchEnd, List.min?_eq_none_iff, List.eq_nil_iff_forall_not_mem]
    intro k hk
    obtain ⟨id, hid, hm, -⟩ := (hends k).1 hk
    obtain ⟨k', hk', -⟩ := hle _ (hpage id hid) hm (hne (hnext id hid hm))
    cases hk'
  · rw [hc] at hle hmem
    obtain ⟨p, hp, hm, rfl, -⟩ := hmem k rfl
    obtain ⟨a, ha, rfl⟩ := List.mem_map.1 hp
    obtain ⟨id, hid, rfl⟩ := List.mem_map.1 ha
    rw [Option.map_some, eq_comm, stretchEnd, List.min?_eq_some_iff]
    refine ⟨(hends _).2 ⟨id, hid, hm, rfl⟩, fun j hj => ?_⟩
    obtain ⟨id', hid', hm', rfl⟩ := (hends j).1 hj
    obtain ⟨k', hk', hle'⟩ := hle _ (hpage id' hid') hm' (hne (hnext id' hid' hm'))
    cases hk'
    exact (drop_le_drop (hnext id hid hm) (hnext id' hid' hm')).2 hle'

theorem mem_entries {rows : List MergedRow} :
    x ∈ ((rows.filterMap (entry C)).map fun e => (e.name, e.value)) ↔
      ∃ r ∈ rows, r.reg.drop prefixRef.length = x.1 ∧ liveRef C r.row = some x.2 := by
  simp only [List.mem_map, List.mem_filterMap, entry, Option.map_eq_some_iff]
  constructor
  · rintro ⟨e, ⟨r, hr, rv, hrv, rfl⟩, rfl⟩
    exact ⟨r, hr, rfl, hrv⟩
  · rintro ⟨r, hr, hname, hlive⟩
    exact ⟨_, ⟨r, hr, _, hlive, rfl⟩, by rw [hname]⟩

theorem prefix_of_mem_merged (hq : Quiescent v stores truth) (hh : Heard v heard)
    (hafter : after = [] ∨ pre <+: after) {r : MergedRow}
    (hr : r ∈ merged stores heard (prefixRef ++ pre) (afterReg after) limit) :
    prefixRef <+: r.reg := by
  obtain ⟨a, ha, -, -⟩ := mem_mergedRows hr
  obtain ⟨sr, hsr, hreg, -⟩ := ha.source
  obtain ⟨⟨ac, hac, row, hget, hlo, hup, -⟩, -⟩ :=
    (mem_mergeInput (named_of_isPrefix (by simp [prefixRef]))).1 hsr
  obtain ⟨id, hid, rfl⟩ := List.mem_map.1 hac
  have hnames := hq.names id (hh.voters id hid) sr.reg row hget
  rw [← hreg]
  exact prefix_of_append ((range_iff hafter fun hp => (hnames hp).2).1 ⟨hlo, hup⟩).1

theorem entries_sorted {rows : List MergedRow} (hs : rows.Pairwise fun r s => r.reg < s.reg)
    (hp : ∀ r ∈ rows, prefixRef <+: r.reg) :
    ((rows.filterMap (entry C)).map fun e => (e.name, e.value)).Pairwise
      fun x y => x.1 < y.1 := by
  rw [List.pairwise_map]
  have hs' : rows.Pairwise fun r s =>
      r.reg.drop prefixRef.length < s.reg.drop prefixRef.length :=
    hs.imp_of_mem fun hr hs h => (drop_lt_drop (hp _ hr) (hp _ hs)).2 h
  refine hs'.filterMap _ fun r s hlt e he e' he' => ?_
  obtain ⟨rv, -, rfl⟩ := Option.map_eq_some_iff.1 he
  obtain ⟨rv', -, rfl⟩ := Option.map_eq_some_iff.1 he'
  exact hlt

/-- A page of the catalog: the live references behind the cursor, up to the next. -/
theorem refList_spec (C : Codecs ρ) (limit : ℤ) (hq : Quiescent v stores truth)
    (hh : Heard v heard) (hafter : after = [] ∨ pre <+: after) :
    ∃ es next, refList C v stores heard pre after limit = some (es, next) ∧
      cursor next = stretchEnd stores heard pre limit (cursor after) ∧
      (es.map fun e => (e.name, e.value)) =
        Cursor.between Prod.fst (live C truth pre) (cursor after) (cursor next) ∧
      ∀ k ∈ cursor next, pre <+: k ∧ ∀ j ∈ cursor after, j < k := by
  have hne : prefixRef ++ pre ≠ [] := by simp [prefixRef]
  set c := cut ((heard.map stores).map (pageOf (prefixRef ++ pre) (afterReg after) limit)) with hc
  have hcut : ∀ k ∈ c, _ := fun k hk => cut_ok hq hh hafter hk
  have hcursor : ∀ name, name ∈ cursor ((c.map (List.drop prefixRef.length)).getD []) ↔
      ∃ k ∈ c, name = k.drop prefixRef.length := by
    intro name
    rcases hk : c with _ | k
    · simp [cursor]
    · have hnil := (hcut k hk).2.1
      simp [cursor, hnil, eq_comm]
  refine ⟨(merged stores heard (prefixRef ++ pre) (afterReg after) limit).filterMap (entry C),
    (c.map (List.drop prefixRef.length)).getD [], ?_, ?_, ?_, ?_⟩
  · have hscan : scan v (ask v stores heard (prefixRef ++ pre) (afterReg after) limit) = _ :=
      scan_ask hq hh
    unfold afterReg at hscan
    unfold refList
    simp only [hscan]
    rfl
  · rw [← cut_eq hq hh hafter, ← hc]
    rcases hk : c with _ | k
    · rfl
    · simp [cursor, (hcut k hk).2.1]
  · have hirrefl : Std.Irrefl fun x y : Bytes × RefValue => x.1 < y.1 := ⟨fun x => lt_irrefl x.1⟩
    have hanti : Std.Antisymm fun x y : Bytes × RefValue => x.1 < y.1 :=
      ⟨fun x y h h' => absurd h' h.not_gt⟩
    refine List.Pairwise.eq_of_mem_iff ?_ ((live_sorted C truth pre).filter _) fun x => ?_
    · exact entries_sorted (mergedRows_sorted _ _) fun r hr => prefix_of_mem_merged hq hh hafter hr
    · rw [mem_entries, Cursor.mem_between, prefix_of_mem_live]
      constructor
      · rintro ⟨r, hr, hname, hlive⟩
        obtain ⟨htruth, hlo, hup, hle⟩ :=
          (mem_merged hq hh hne (liveRef_hasValue hlive)).1 ⟨r, hr, rfl, rfl⟩
        obtain ⟨hp, hlt⟩ :=
          (range_iff hafter fun hp => (hq.name_ok htruth hp).2).1 ⟨hlo, hup⟩
        have hreg : refReg x.1 = r.reg := by rw [← hname, reg_eq (prefix_of_append hp)]
        refine ⟨⟨r.row, hreg ▸ htruth, ?_, hlive⟩, hname ▸ hlt, fun name hn => ?_⟩
        · rw [← hreg] at hp
          exact (List.prefix_append_right_inj prefixRef).1 hp
        · obtain ⟨k, hk, rfl⟩ := (hcursor name).1 hn
          rw [← hname]
          exact (drop_le_drop (prefix_of_append hp) (prefix_of_append (hcut k hk).1)).2 (hle k hk)
      · rintro ⟨⟨row, htruth, hp, hlive⟩, hlt, hle⟩
        have hp' : prefixRef ++ pre <+: refReg x.1 := (List.prefix_append_right_inj prefixRef).2 hp
        have hname : (refReg x.1).drop prefixRef.length = x.1 := by simp [refReg, prefixRef]
        obtain ⟨hlo, hup⟩ := (range_iff hafter
          fun hp => (hq.name_ok htruth hp).2).2 ⟨hp', hname.symm ▸ hlt⟩
        have hbelow : ∀ k ∈ c, refReg x.1 ≤ k := by
          intro k hk
          rw [← drop_le_drop (prefix_of_append hp') (prefix_of_append (hcut k hk).1), hname]
          exact hle _ ((hcursor _).2 ⟨k, hk, rfl⟩)
        obtain ⟨r, hr, hreg, rfl⟩ := (mem_merged hq hh hne (liveRef_hasValue hlive)).2
          ⟨htruth, hlo, hup, hbelow⟩
        exact ⟨r, hr, by rw [hreg, hname], hlive⟩
  · intro name hname
    obtain ⟨k, hk, rfl⟩ := (hcursor name).1 hname
    obtain ⟨hp, -, hlt⟩ := hcut k hk
    obtain ⟨t, rfl⟩ := hp
    refine ⟨?_, hlt⟩
    simp [prefixRef]

/-! ## Pages of the node -/

theorem info_name {r : RefInfo ρ} (h : info C x = some r) :
    r.name = x.1 := by
  obtain ⟨d, -, rfl⟩ := Option.map_eq_some_iff.1 h
  rfl

/-- The node sends all references whose records decode, if they fit, or those up to the first that
is too many. -/
theorem reply_cases (C : Codecs ρ) (es : List RefEntry) (size : ℕ) (next : Bytes) :
    let refs := (es.map fun e => (e.name, e.value)).filterMap (info C)
    (reply C es size next = (refs, next) ∧
        ∀ m ≤ refs.length, size + ((refs.take m).map (refSize C)).sum ≤ max size maxPageBytes) ∨
      ∃ l e l' r, es = l ++ e :: l' ∧ info C (e.name, e.value) = some r ∧
        reply C es size next =
          ((l.map fun e => (e.name, e.value)).filterMap (info C) ++ [r], e.name) ∧
        maxPageBytes < size + (((l.map fun e => (e.name, e.value)).filterMap (info C) ++
          [r]).map (refSize C)).sum ∧
        ∀ m ≤ ((l.map fun e => (e.name, e.value)).filterMap (info C)).length,
          size + ((((l.map fun e => (e.name, e.value)).filterMap (info C)).take m).map
            (refSize C)).sum ≤ max size maxPageBytes := by
  induction es generalizing size with
  | nil => exact .inl ⟨rfl, by simp⟩
  | cons e es ih =>
    unfold reply
    split
    · rename_i hdec
      have hnone : info C (e.name, e.value) = none := by simp [info, hdec]
      rcases ih size with ⟨h, hsize⟩ | ⟨l, e', l', r, rfl, hr, h, hover, hsize⟩
      · refine .inl ⟨by rw [h, List.map_cons, List.filterMap_cons_none hnone], ?_⟩
        rw [List.map_cons, List.filterMap_cons_none hnone]
        exact hsize
      · refine .inr ⟨e :: l, e', l', r, rfl, hr, ?_⟩
        rw [List.map_cons, List.filterMap_cons_none hnone]
        exact ⟨h, hover, hsize⟩
    · rename_i r hdec
      have hsome : info C (e.name, e.value) = some ⟨e.name, r, e.value.version⟩ := by
        simp [info, hdec]
      have hadd : size + e.name.length + 32 + 40 + C.userLen r + 16 =
          size + refSize C ⟨e.name, r, e.value.version⟩ := by simp only [refSize]; omega
      dsimp only
      rw [hadd]
      split_ifs with hbig
      · exact .inr ⟨[], e, es, _, rfl, hsome, rfl, by simpa using hbig, by simp⟩
      · -- a prefix with the entry fits if the rest of it fits behind the entry
        have hcons : ∀ refs : List (RefInfo ρ), (∀ m ≤ refs.length,
              size + refSize C ⟨e.name, r, e.value.version⟩ + ((refs.take m).map (refSize C)).sum ≤
                max (size + refSize C ⟨e.name, r, e.value.version⟩) maxPageBytes) →
            ∀ m ≤ refs.length + 1, size + (((⟨e.name, r, e.value.version⟩ :: refs).take m).map
              (refSize C)).sum ≤ max size maxPageBytes := by
          intro refs h m hm
          cases m with
          | zero => simp
          | succ m =>
            have := h m (by omega)
            rw [List.take_succ_cons, List.map_cons, List.sum_cons]
            omega
        rcases ih (size + refSize C ⟨e.name, r, e.value.version⟩) with
          ⟨h, hsize⟩ | ⟨l, e', l', r', rfl, hr, h, hover, hsize⟩
        · refine .inl ⟨by rw [h, List.map_cons, List.filterMap_cons_some hsome], ?_⟩
          rw [List.map_cons, List.filterMap_cons_some hsome]
          exact hcons _ hsize
        · refine .inr ⟨e :: l, e', l', r', rfl, hr, ?_⟩
          rw [List.map_cons, List.filterMap_cons_some hsome]
          refine ⟨by rw [h]; rfl, ?_, hcons _ hsize⟩
          rw [List.cons_append, List.map_cons, List.sum_cons]
          omega

theorem between_filterMap (L : List (Bytes × RefValue)) (a n : Option Bytes) :
    (Cursor.between Prod.fst L a n).filterMap (info C) =
      Cursor.between RefInfo.name (L.filterMap (info C)) a n := by
  unfold Cursor.between
  induction L with
  | nil => rfl
  | cons x L ih =>
    rcases hx : info C x with _ | r
    · rw [List.filterMap_cons_none hx, ← ih, List.filter_cons]
      split_ifs
      · rw [List.filterMap_cons_none hx]
      · rfl
    · rw [List.filterMap_cons_some hx, List.filter_cons, List.filter_cons, info_name hx, ← ih]
      split_ifs
      · rw [List.filterMap_cons_some hx]
      · rfl

theorem between_of_append {L l l' : List (Bytes × RefValue)} {a n : Option Bytes}
    (hs : L.Pairwise fun x y => x.1 < y.1) (h : Cursor.between Prod.fst L a n = l ++ x :: l') :
    l ++ [x] = Cursor.between Prod.fst L a (some x.1) := by
  have hx : x ∈ Cursor.between Prod.fst L a n := by simp [h]
  have hsorted : (l ++ x :: l').Pairwise fun x y => x.1 < y.1 := h ▸ hs.filter _
  obtain ⟨-, hxl, hl⟩ := List.pairwise_append.1 hsorted
  have hfirst : (l ++ x :: l').filter (fun y => decide (y.1 ≤ x.1)) = l ++ [x] := by
    rw [List.filter_append, List.filter_cons_of_pos (by simp)]
    rw [List.filter_eq_self.2 fun y hy => decide_eq_true (hl y hy x (by simp)).le]
    rw [List.filter_eq_nil_iff.2 fun y hy => by
      simpa using (List.pairwise_cons.1 hxl).1 y hy]
  rw [← hfirst, ← h, Cursor.between, Cursor.between, List.filter_filter]
  refine List.filter_congr fun y _ => ?_
  have hn := (Cursor.mem_between.1 hx).2.2
  rw [← Bool.decide_and, decide_eq_decide]
  constructor
  · rintro ⟨hle, ha, -⟩
    exact ⟨ha, by simpa using hle⟩
  · rintro ⟨ha, hle⟩
    have hle : y.1 ≤ x.1 := by simpa using hle
    exact ⟨hle, ha, fun k hk => hle.trans (hn k hk)⟩

/-! ## Whole listings -/

/-- The cursor is one that a page of this prefix may end with. -/
def okCursor (pre k : Bytes) : Prop := k ≠ [] ∧ pre <+: k

theorem cursor_getD {after : Option Bytes} (h : ∀ k ∈ after, okCursor pre k) :
    cursor (after.getD []) = after ∧ (after.getD [] = [] ∨ pre <+: after.getD []) := by
  rcases after with _ | k
  · simp [cursor]
  · obtain ⟨hne, hp⟩ := h k rfl
    simp [cursor, hne, hp]

theorem ne_nil_of_mem_cursor {next k : Bytes} (h : k ∈ cursor next) : k ≠ [] := by
  unfold cursor at h
  split_ifs at h with hn
  · cases h
  · exact Option.mem_some_iff.1 h ▸ hn

variable {hears : ℕ → List NodeID}

theorem catalogPage_cuts (hq : Quiescent v stores truth) (hh : ∀ i, Heard v (hears i))
    (limit : ℤ) :
    Cursor.Cuts (catalogPage C v stores hears pre limit)
      (fun i => stretchEnd stores (hears i) pre limit) Prod.fst (live C truth pre)
      (okCursor pre) := by
  intro i after hok
  obtain ⟨hcur, hafter⟩ := cursor_getD hok
  obtain ⟨es, next, hlist, hend, hes, hnext⟩ := refList_spec C limit hq (hh i) hafter
  rw [hcur] at hend hes hnext
  simp only [← hend]
  rw [catalogPage, hlist, Option.map_some, hes]
  exact ⟨rfl, fun k hk => ⟨⟨ne_nil_of_mem_cursor hk, (hnext k hk).1⟩, (hnext k hk).2⟩⟩

/-- The pages of a node are cut out of the live references. -/
theorem nodePage_cuts (hq : Quiescent v stores truth) (hh : ∀ i, Heard v (hears i)) (limit : ℤ) :
    Cursor.Cuts (nodePage C v stores hears pre limit)
      (fun i => replyEnd C truth stores (hears i) pre limit) RefInfo.name
      ((live C truth pre).filterMap (info C)) (okCursor pre) := by
  intro i after hok
  obtain ⟨hcur, hafter⟩ := cursor_getD hok
  obtain ⟨es, next, hlist, hend, hes, hnext⟩ := refList_spec C limit hq (hh i) hafter
  rw [hcur] at hend hes hnext
  have hrefs : Cursor.between RefInfo.name ((live C truth pre).filterMap (info C)) after
      (cursor next) = (es.map fun e => (e.name, e.value)).filterMap (info C) := by
    rw [hes, between_filterMap]
  simp only [replyEnd, ← hend, hrefs]
  rw [nodePage, hlist, Option.map_some]
  rcases reply_cases C es 0 next with ⟨hr, hsize⟩ | ⟨l, e, l', r, rfl, hinfo, hr, hover, hsize⟩
  · have hfits : Cursor.fillsAt (fun l => decide (maxPageBytes < (l.map (refSize C)).sum))
        RefInfo.name ((es.map fun e => (e.name, e.value)).filterMap (info C))
        (((es.map fun e => (e.name, e.value)).filterMap (info C)).length + 1) = none := by
      refine Cursor.fillsAt_eq_none fun m hm => ?_
      simpa using hsize m (Nat.le_of_lt_succ hm)
    rw [hfits, Option.none_or, hrefs, hr]
    exact ⟨rfl, fun k hk => ⟨⟨ne_nil_of_mem_cursor hk, (hnext k hk).1⟩, (hnext k hk).2⟩⟩
  · have hmem : (e.name, e.value) ∈ Cursor.between Prod.fst (live C truth pre) after
        (cursor next) := by
      rw [← hes]
      simp
    obtain ⟨hlive, hlt, -⟩ := Cursor.mem_between.1 hmem
    obtain ⟨row, htruth, hp, -⟩ := prefix_of_mem_live.1 hlive
    have hne : e.name ≠ [] := by
      intro hnil
      refine (hq.name_ok htruth (List.prefix_append _ _)).1 ?_
      rw [hnil]
      rfl
    set sent := (l.map fun e => (e.name, e.value)).filterMap (info C) with hsent
    set all := ((l ++ e :: l').map fun e => (e.name, e.value)).filterMap (info C) with hall
    have hsplit : all = sent ++ r :: (l'.map fun e => (e.name, e.value)).filterMap (info C) := by
      rw [hall, List.map_append, List.filterMap_append, List.map_cons,
        List.filterMap_cons_some hinfo]
    have hfull : Cursor.fillsAt (fun l => decide (maxPageBytes < (l.map (refSize C)).sum))
        RefInfo.name all (all.length + 1) = some e.name := by
      rw [← show r.name = e.name from info_name hinfo]
      refine Cursor.fillsAt_eq_some (m := sent.length + 1) (by simp [hsplit]) ?_ ?_ ?_
      · have htake : all.take (sent.length + 1) = sent ++ [r] := by
          rw [hsplit, List.take_length_add_append]
          rfl
        simpa [htake] using hover
      · intro j hj
        rw [hsplit, List.take_append_of_le_length (by omega)]
        simpa using hsize j (by omega)
      · simp [hsplit, List.take_append]
    rw [hfull]
    simp only [hr, cursor, hne, if_false]
    refine ⟨?_, fun k hk => ?_⟩
    · rw [List.map_append, List.map_cons] at hes
      have hcut := between_of_append (live_sorted C truth pre) hes.symm
      rw [Option.some_or, ← between_filterMap, ← hcut, List.filterMap_append,
        List.filterMap_cons_some hinfo]
      rfl
    · obtain rfl := Option.mem_some_iff.1 hk
      exact ⟨⟨hne, hp⟩, hlt⟩

/-- The client's loop lists the live references with the prefix whose records decode, in ascending
order of their names, exactly if no reply without a reference ends in front of one; the reconcile's
lists all live references exactly if no stretch without one ends in front of one. -/
theorem listing_complete_iff (hq : Quiescent v stores truth) (hh : ∀ i, Heard v (hears i))
    {fuel : ℕ} (hfuel : (live C truth pre).length < fuel) :
    (clientRefList C v stores hears pre limit fuel = some ((live C truth pre).filterMap (info C)) ↔
        Cursor.Gapless (fun i => replyEnd C truth stores (hears i) pre limit) RefInfo.name
          ((live C truth pre).filterMap (info C)) 0 none) ∧
      (reconcileRefList C v stores hears pre limit fuel = some (live C truth pre) ↔
        Cursor.Gapless (fun i => stretchEnd stores (hears i) pre limit) Prod.fst
          (live C truth pre) 0 none) ∧
      (live C truth pre).Pairwise (fun x y => x.1 < y.1) ∧
      ∀ name rv, (name, rv) ∈ live C truth pre ↔
        ∃ row, truth.get (refReg name) = some row ∧ pre <+: name ∧ liveRef C row = some rv := by
  have hsorted := live_sorted C truth pre
  have hinfos : ((live C truth pre).filterMap (info C)).Pairwise fun x y => x.name < y.name :=
    hsorted.filterMap _ fun x y hlt r hr r' hr' => by rwa [info_name hr, info_name hr']
  have hall : ∀ {α : Type} (name : α → Bytes) (items : List α),
      Cursor.behind name items none = items := fun name items => by simp [Cursor.behind]
  have hnone : ∀ k ∈ (none : Option Bytes), okCursor pre k := by simp
  refine ⟨?_, ?_, hsorted, fun name rv => prefix_of_mem_live⟩
  · have hlen := (List.length_filterMap_le (info C) (live C truth pre)).trans_lt hfuel
    rw [← hall RefInfo.name ((live C truth pre).filterMap (info C))] at hlen
    have h := Cursor.follow_eq_iff hinfos (nodePage_cuts hq hh limit) (i := 0) hnone hlen
    rwa [hall] at h
  · have hlen := hfuel
    rw [← hall Prod.fst (live C truth pre)] at hlen
    have h := Cursor.follow_eq_iff hsorted (catalogPage_cuts hq hh limit) (i := 0) hnone hlen
    rwa [hall] at h

/-! ## Catalogs every voter has alike -/

/-- The rows as they are decided. -/
def truthOf (rows : KV Bytes AcceptorRow) : KV Bytes Row where
  entries := rows.entries.map fun e => (e.1, e.2.toRow)
  sorted := rows.sorted.map _ fun _ _ h => h

theorem get_truthOf {row : Row} :
    (truthOf rows).get reg = some row ↔ ∃ r, rows.get reg = some r ∧ r.toRow = row := by
  rw [KV.get_eq_some]
  constructor
  · intro h
    obtain ⟨⟨reg', r⟩, hr, he⟩ := List.mem_map.1 h
    simp only [Prod.mk.injEq] at he
    obtain ⟨rfl, rfl⟩ := he
    exact ⟨r, KV.get_eq_some.2 hr, rfl⟩
  · rintro ⟨r, hr, rfl⟩
    exact List.mem_map.2 ⟨(reg, r), KV.get_eq_some.1 hr, rfl⟩

/-- Voters with the same rows are quiescent. -/
theorem quiescent_of_rows (hserves : ∀ id ∈ v.voterIDs, (stores id).refuseIfForgetful = none)
    (hrows : ∀ id ∈ v.voterIDs, (stores id).rows = rows) (hnd : v.voterIDs.Nodup)
    (hne : v.voterIDs ≠ [])
    (hok : ∀ e ∈ rows.entries, e.2.accepted ≠ ⊥ ∧ (prefixRef <+: e.1 → e.1 ≠ prefixRef ∧ 255 ∉ e.1)) :
    Quiescent v stores (truthOf rows) := by
  have hrow : ∀ id ∈ v.voterIDs, ∀ reg, (stores id).row reg = (rows.get reg).getD {} :=
    fun id hid reg => by rw [Acceptor.row, hrows id hid]
  refine ⟨hserves, fun reg row htruth => ?_, fun id hid reg => ?_, fun id hid reg r hget => ?_⟩
  · obtain ⟨r, hr, rfl⟩ := get_truthOf.1 htruth
    refine ⟨(hok _ (KV.get_eq_some.1 hr)).1, v.voterIDs.toFinset, ⟨by simp, ?_⟩,
      fun id hid => ?_⟩
    · rw [List.toFinset_card_of_nodup hnd, quorum]
      have := List.length_pos_of_ne_nil hne
      omega
    · rw [hrow id (by simpa using hid), hr]
      rfl
  · rw [hrow id hid]
    rcases hr : rows.get reg with _ | r
    · exact .inl ⟨rfl, rfl⟩
    · exact .inr ⟨r.toRow, get_truthOf.2 ⟨r, hr, rfl⟩, .inr rfl⟩
  · rw [hrows id hid] at hget
    exact (hok _ (KV.get_eq_some.1 hget)).2

namespace Alone

/-- Records that always decode. -/
def codecs : Codecs Bytes := ⟨refCodec, some, fun _ => 0⟩

def view : View := { incarnation := 1, epoch := 1, version := 1, voters := [⟨1, 0⟩] }

/-- A voter with these rows. -/
def store (rows : KV Bytes AcceptorRow) : NodeID → Acceptor := fun _ =>
  { self := 1, installed := some view, marker := some 0, rows := rows }

def row (value : RefValue) : AcceptorRow := ⟨⟨1, 1⟩, ⟨1, 1⟩, refCodec.enc value, true⟩

/-- A reference that is there. -/
def kept : RefValue := { record := [7], version := [1] }

/-- A reference that is gone. -/
def tombstone : RefValue := { deletedAt := 1, version := [2] }

theorem quiescent
    (hok : ∀ e ∈ rows.entries, e.2.accepted ≠ ⊥ ∧ (prefixRef <+: e.1 → e.1 ≠ prefixRef ∧ 255 ∉ e.1)) :
    Quiescent view (store rows) (truthOf rows) :=
  quiescent_of_rows (fun _ _ => rfl) (fun _ _ => rfl) (by decide) (by decide) hok

theorem hearsAll (_ : ℕ) : Heard view [1] := ⟨by simp, by decide, by decide⟩

/-- Two references, each in front of a tombstone, and two tombstones more than a page of two. -/
def few : KV Bytes AcceptorRow :=
  [([97], kept), ([98], tombstone), ([99], kept), ([100], tombstone), ([101], tombstone),
    ([102], tombstone), ([103], tombstone)].foldl (fun m e => m.set (refReg e.1) (row e.2)) .empty

end Alone

open Alone in
/-- The third page has tombstones only, and no reference behind it. -/
theorem listing_complete_iff_few :
    clientRefList codecs view (store few) (fun _ => [1]) [] 2 3 =
        some [⟨[97], [7], [1]⟩, ⟨[99], [7], [1]⟩] ∧
      reconcileRefList codecs view (store few) (fun _ => [1]) [] 2 3 =
        some [([97], kept), ([99], kept)] ∧
      stretchEnd (store few) [1] [] 2 (some [100]) = some [102] ∧
      Cursor.Gapless (fun _ => replyEnd codecs (truthOf few) (store few) [1] [] 2) RefInfo.name
        [(⟨[97], [7], [1]⟩ : RefInfo Bytes), ⟨[99], [7], [1]⟩] 0 none ∧
      Cursor.Gapless (fun _ => stretchEnd (store few) [1] [] 2) Prod.fst
        [([97], kept), ([99], kept)] 0 none := by
  have hq : Quiescent view (store few) (truthOf few) := quiescent (by decide +kernel)
  have hlive : live codecs (truthOf few) [] = [([97], kept), ([99], kept)] := by decide +kernel
  have hinfo : (live codecs (truthOf few) []).filterMap (info codecs) =
      [⟨[97], [7], [1]⟩, ⟨[99], [7], [1]⟩] := by decide +kernel
  have hclient : clientRefList codecs view (store few) (fun _ => [1]) [] 2 3 =
      some [⟨[97], [7], [1]⟩, ⟨[99], [7], [1]⟩] := by decide +kernel
  have hrec : reconcileRefList codecs view (store few) (fun _ => [1]) [] 2 3 =
      some [([97], kept), ([99], kept)] := by decide +kernel
  obtain ⟨h1, h2, -⟩ := listing_complete_iff hq hearsAll (show _ < 3 by rw [hlive]; decide)
  rw [hinfo] at h1
  rw [hlive] at h2
  exact ⟨hclient, hrec, by decide +kernel, h1.1 hclient, h2.1 hrec⟩

namespace Alone

/-- Four letters for a number, in its order. -/
def letters (i : ℕ) : Bytes :=
  [Fin.ofNat 256 (97 + i / 26 / 26 / 26), Fin.ofNat 256 (97 + i / 26 / 26 % 26),
    Fin.ofNat 256 (97 + i / 26 % 26), Fin.ofNat 256 (97 + i % 26)]

theorem letters_lt {i j : ℕ} (hij : i < j) (hj : j < 20000) : letters i < letters j := by
  simp only [letters, List.cons_lt_cons_iff, Fin.lt_def, Fin.ext_iff, Fin.val_ofNat]
  omega

theorem letters_lt_last {i : ℕ} (hi : i < 20000) : letters i < [122] := by
  simp only [letters, List.cons_lt_cons_iff, Fin.lt_def, Fin.val_ofNat]
  left
  change (97 + i / 26 / 26 / 26) % 256 < 122
  omega

/-- So many deleted references, and one that is there behind them. -/
def crowded (n : ℕ) (hn : n ≤ 20000) : KV Bytes AcceptorRow where
  entries := (List.range n).map (fun i => (refReg (letters i), row tombstone)) ++
    [(refReg [122], row kept)]
  sorted := by
    rw [List.pairwise_append, List.pairwise_map]
    refine ⟨?_, List.pairwise_singleton _ _, fun a ha b hb => ?_⟩
    · refine List.pairwise_lt_range.imp_of_mem fun hi hj hij => ?_
      exact LexOrder.append_lt_append.2 (letters_lt hij ((List.mem_range.1 hj).trans_le hn))
    · obtain ⟨i, hi, rfl⟩ := List.mem_map.1 ha
      rw [List.mem_singleton.1 hb]
      exact LexOrder.append_lt_append.2 (letters_lt_last ((List.mem_range.1 hi).trans_le hn))

section

variable {n : ℕ} {hn : n ≤ 20000}

theorem crowded_names {e : Bytes × AcceptorRow} (he : e ∈ (crowded n hn).entries) :
    ∃ name, e.1 = refReg name ∧ name ≠ [] ∧ 255 ∉ e.1 ∧ e.2.accepted ≠ ⊥ := by
  have hacc : (⟨1, 1⟩ : Ballot) ≠ ⊥ := by decide
  rcases List.mem_append.1 he with he | he
  · obtain ⟨i, hi, rfl⟩ := List.mem_map.1 he
    have hi := (List.mem_range.1 hi).trans_le hn
    refine ⟨letters i, rfl, by simp [letters], ?_, hacc⟩
    have hletters : (255 : Fin 256) ∉ letters i := by
      have hlow : ∀ x, x % 256 < 255 → (255 : Fin 256) ≠ Fin.ofNat 256 x := by
        intro x hx he
        have := congrArg Fin.val he
        change 255 = x % 256 at this
        omega
      simp only [letters, List.mem_cons, List.not_mem_nil, or_false, not_or]
      exact ⟨hlow _ (by omega), hlow _ (by omega), hlow _ (by omega), hlow _ (by omega)⟩
    have hpre : (255 : Fin 256) ∉ prefixRef := by decide
    exact fun h => (List.mem_append.1 h).elim hpre hletters
  · rw [List.mem_singleton.1 he]
    exact ⟨[122], rfl, by simp, by decide, hacc⟩

theorem crowded_quiescent : Quiescent view (store (crowded n hn)) (truthOf (crowded n hn)) := by
  refine quiescent fun e he => ?_
  obtain ⟨name, hname, hne, htop, hacc⟩ := crowded_names he
  refine ⟨hacc, fun _ => ⟨fun hp => hne ?_, htop⟩⟩
  rw [hname] at hp
  exact List.append_right_eq_self.1 hp

theorem crowded_scan : (crowded n hn).scan (Acceptor.lower prefixRef [])
    (Acceptor.upper prefixRef) = (crowded n hn).entries := by
  refine List.filter_eq_self.2 fun e he => ?_
  obtain ⟨name, hname, -, htop, -⟩ := crowded_names he
  have hp : prefixRef <+: e.1 := hname ▸ List.prefix_append _ _
  have hrange := LexOrder.mem_range_of_prefix (t := [255, 255, 255]) hp htop
  have hmem : e ∈ (crowded n hn).scan (Acceptor.lower prefixRef []) (Acceptor.upper prefixRef) :=
    KV.mem_scan.2 ⟨KV.get_eq_some.2 he, hrange⟩
  exact (List.mem_filter.1 hmem).2

theorem tombstone_of_mem_page (hpos : 0 < n) {sr : ScanRow}
    (h : sr ∈ ((store (crowded n hn) 1).scanPage prefixRef [] n).1) :
    liveRef codecs ⟨sr.accepted, sr.value, sr.hasValue⟩ = none := by
  obtain ⟨k, hrows, -, hk, -⟩ := Acceptor.page_eq_take n (crowded n hn).entries 0 0
  have hlimit : Acceptor.rowLimit n = n := by
    unfold Acceptor.rowLimit
    split_ifs <;> omega
  rw [Acceptor.scanPage, hlimit] at h
  change sr ∈ (Acceptor.page n ((crowded n hn).scan _ _) 0 0).1 at h
  rw [crowded_scan, hrows] at h
  obtain ⟨e, he, rfl⟩ := List.mem_map.1 h
  have hle : k ≤ ((List.range n).map fun i => (refReg (letters i), row tombstone)).length := by
    rw [List.length_map, List.length_range]
    simpa using hk
  rw [crowded, List.take_append_of_le_length hle] at he
  obtain ⟨i, -, rfl⟩ := List.mem_map.1 (List.mem_of_mem_take he)
  rfl

theorem crowded_page (hn : n ≤ 20000) (hpos : 0 < n) : ∃ next,
    refList codecs view (store (crowded n hn)) [1] [] [] n = some ([], next) := by
  have hscan : scan view (ask view (store (crowded n hn)) [1] prefixRef [] n) = _ :=
    scan_ask crowded_quiescent (hearsAll 0)
  simp only [refList, List.append_nil, if_true, hscan]
  refine ⟨_, congrArg some (Prod.ext ?_ rfl)⟩
  refine List.filterMap_eq_nil_iff.2 fun r hr => ?_
  obtain ⟨a, ha, hrow, -⟩ := mem_mergedRows hr
  obtain ⟨sr, hsr, -, hsource⟩ := ha.source
  obtain ⟨p, hp, hmem⟩ := List.mem_flatMap.1 (List.mem_filter.1 hsr).1
  simp only [List.map_cons, List.map_nil, List.mem_singleton] at hp
  rw [hp] at hmem
  rw [entry, hrow, hsource, tombstone_of_mem_page hpos hmem]
  rfl

/-- Where a page has as many rows as there are tombstones, neither loop finds the reference behind
them. -/
theorem crowded_lists (hn : n ≤ 20000) (hpos : 0 < n) :
    ([122], kept) ∈ live codecs (truthOf (crowded n hn)) [] ∧ ∀ fuel,
      clientRefList codecs view (store (crowded n hn)) (fun _ => [1]) [] n (fuel + 1) = some [] ∧
      reconcileRefList codecs view (store (crowded n hn)) (fun _ => [1]) [] n (fuel + 1) =
        some [] := by
  obtain ⟨next, hlist⟩ := crowded_page hn hpos
  refine ⟨?_, fun fuel => ⟨?_, ?_⟩⟩
  · refine prefix_of_mem_live.2 ⟨(row kept).toRow, get_truthOf.2 ⟨row kept, ?_, rfl⟩, by simp, rfl⟩
    exact KV.get_eq_some.2 (List.mem_append_right _ (by simp))
  · unfold clientRefList
    rw [Cursor.follow]
    simp only [nodePage, Option.getD_none, hlist, Option.map_some, reply]
    rcases cursor next <;> rfl
  · unfold reconcileRefList
    rw [Cursor.follow]
    simp only [catalogPage, Option.getD_none, hlist, Option.map_some, List.map_nil]
    rcases cursor next <;> rfl

end

end Alone

open Alone in
/-- Behind 20000 tombstones, the rows of a page, there is a reference that neither loop finds. -/
theorem tombstones_end_listing :
    Quiescent view (store (crowded 20000 le_rfl)) (truthOf (crowded 20000 le_rfl)) ∧
      ([122], kept) ∈ live codecs (truthOf (crowded 20000 le_rfl)) [] ∧
      clientRefList codecs view (store (crowded 20000 le_rfl)) (fun _ => [1]) [] (20000 : ℕ)
        20002 = some [] ∧
      reconcileRefList codecs view (store (crowded 20000 le_rfl)) (fun _ => [1]) [] (20000 : ℕ)
        20002 = some [] := by
  obtain ⟨hlive, hlists⟩ := crowded_lists (n := 20000) le_rfl (by omega)
  exact ⟨crowded_quiescent, hlive, (hlists 20001).1, (hlists 20001).2⟩

end Dstore.Listing

import Dstore.Proofs.Listing

/-!
# A majority scan is exact

Every page of `Scan` has the registers behind its cursor that some voter replying to it holds, up to
the smallest last register among the voters that have more; that register is itself in the page.
Each page is a broadcast of its own: a register is missed where the voters that hold it do not reply
to the page it belongs to. The empty name is no cursor: the registers must have names.
-/

namespace Dstore.Listing

variable {v : View} {stores : NodeID → Acceptor} {ids : List NodeID} {heard : ℕ → List NodeID}
  {pre : Bytes} {limit : ℤ}

/-- The registers with the prefix that one of the voters holds. -/
def held (stores : NodeID → Acceptor) (ids : List NodeID) (pre : Bytes) : Finset Bytes :=
  (ids.flatMap fun id => (stores id).rows.entries.map Prod.fst).toFinset.filter
    fun reg => pre.isPrefixOf reg

theorem mem_held {reg : Bytes} : reg ∈ held stores ids pre ↔
    pre <+: reg ∧ ∃ id ∈ ids, ∃ r, (stores id).rows.get reg = some r := by
  simp only [held, Finset.mem_filter, List.mem_toFinset, List.mem_flatMap, List.mem_map,
    List.isPrefixOf_iff_prefix, KV.get_eq_some, and_comm (b := pre <+: reg)]
  refine and_congr_right fun _ => exists_congr fun id => and_congr_right fun _ => ?_
  exact ⟨fun ⟨e, he, hreg⟩ => ⟨e.2, hreg ▸ he⟩, fun ⟨r, hr⟩ => ⟨_, hr, rfl⟩⟩

/-- A majority of the voters replies to each page, not always the same ones and in any order; the
voters' registers with the prefix have names, without the byte 255. -/
structure Replying (v : View) (stores : NodeID → Acceptor) (heard : ℕ → List NodeID) (pre : Bytes) :
    Prop where
  voters : ∀ i, ∀ id ∈ heard i, id ∈ v.voterIDs
  quorum : ∀ i, v.quorum ≤ (heard i).length
  serves : ∀ i, ∀ id ∈ heard i, (stores id).refuseIfForgetful = none
  names : ∀ id ∈ v.voterIDs, ∀ reg r, (stores id).rows.get reg = some r → pre <+: reg →
    reg ≠ [] ∧ 255 ∉ reg

section page

variable (h : Replying v stores heard pre) (i : ℕ) {after : Option Bytes}
include h

theorem Replying.mergedPage_eq (after : Option Bytes) :
    mergedPage v stores heard pre limit i after =
      some (merged stores (heard i) pre (after.getD []) limit,
        cut (((heard i).map stores).map (pageOf pre (after.getD []) limit))) := by
  unfold mergedPage scan
  rw [pages_ask (h.serves i)]
  dsimp only
  rw [List.length_map, List.length_map, if_neg (not_lt.2 (h.quorum i))]
  rfl

theorem Replying.nil_not_held {a : Acceptor} (ha : a ∈ (heard i).map stores) (hpre : pre = []) :
    a.rows.get [] = none := by
  obtain ⟨id, hid, rfl⟩ := List.mem_map.1 ha
  rcases hg : (stores id).rows.get [] with _ | r
  · rfl
  · exact absurd rfl (h.names id (h.voters i id hid) [] r hg (by simp [hpre])).1

theorem Replying.held_subset : held stores (heard i) pre ⊆ held stores v.voterIDs pre := by
  intro reg hreg
  obtain ⟨hp, id, hid, r, hget⟩ := mem_held.1 hreg
  exact mem_held.2 ⟨hp, id, h.voters i id hid, r, hget⟩

theorem Replying.after_ok (hafter : ∀ k ∈ after, k ∈ held stores v.voterIDs pre) :
    ∀ k ∈ after, k ≠ [] ∧ pre <+: k := by
  intro k hk
  obtain ⟨hp, id, hid, r, hget⟩ := mem_held.1 (hafter k hk)
  exact ⟨(h.names id hid k r hget hp).1, hp⟩

theorem Replying.mem_range (hafter : ∀ k ∈ after, k ∈ held stores v.voterIDs pre) {reg : Bytes} :
    (∃ a ∈ (heard i).map stores, ∃ r, a.rows.get reg = some r ∧
        Acceptor.lower pre (after.getD []) ≤ reg ∧ reg < Acceptor.upper pre) ↔
      reg ∈ held stores (heard i) pre ∧ ∀ k ∈ after, k < reg := by
  rw [mem_held]
  constructor
  · rintro ⟨a, ha, r, hget, hrange⟩
    obtain ⟨id, hid, rfl⟩ := List.mem_map.1 ha
    obtain ⟨hp, hlt⟩ := (Acceptor.range_iff (h.after_ok hafter)
      fun hp => (h.names id (h.voters i id hid) reg r hget hp).2).1 hrange
    exact ⟨⟨hp, id, hid, r, hget⟩, hlt⟩
  · rintro ⟨⟨hp, id, hid, r, hget⟩, hlt⟩
    refine ⟨_, List.mem_map_of_mem hid, r, hget, ?_⟩
    exact (Acceptor.range_iff (h.after_ok hafter)
      fun hp => (h.names id (h.voters i id hid) reg r hget hp).2).2 ⟨hp, hlt⟩

/-- A page has what its voters hold behind the cursor, up to its own. -/
theorem Replying.exact_page (hafter : ∀ k ∈ after, k ∈ held stores v.voterIDs pre) :
    Cursor.Exact MergedRow.reg (held stores (heard i) pre) after
      (merged stores (heard i) pre (after.getD []) limit,
        cut (((heard i).map stores).map (pageOf pre (after.getD []) limit))) where
  sorted := mergedRows_sorted _ _
  mem reg := by
    have hnil : Acceptor.lower pre (after.getD []) = [] →
        ∀ a ∈ (heard i).map stores, a.rows.get [] = none := by
      intro hlow a ha
      refine h.nil_not_held i ha ?_
      unfold Acceptor.lower at hlow
      split_ifs at hlow
      · exact hlow
      · simp at hlow
    rw [← and_assoc, ← h.mem_range i hafter]
    constructor
    · rintro ⟨r, hr, rfl⟩
      obtain ⟨m, hm, -⟩ := mem_mergedRows hr
      obtain ⟨sr, hsr, hreg, -⟩ := hm.source
      obtain ⟨⟨a, ha, ar, hget, hlo, hup, -⟩, hcut⟩ := (mem_mergeInput hnil).1 hsr
      rw [hreg] at hget hlo hup hcut
      exact ⟨⟨a, ha, ar, hget, hlo, hup⟩, hcut⟩
    · rintro ⟨⟨a, ha, ar, hget, hlo, hup⟩, hcut⟩
      have hin : (⟨reg, ar.promised, ar.accepted, ar.value, ar.hasValue⟩ : ScanRow) ∈
          mergeInput (((heard i).map stores).map (pageOf pre (after.getD []) limit)) :=
        (mem_mergeInput hnil).2 ⟨⟨a, ha, ar, hget, hlo, hup, rfl⟩, hcut⟩
      exact exists_mergedRow _ hin
  next k hk := by
    obtain ⟨p, hp, hmore, rfl, -⟩ := (cut_spec _).2 k hk
    obtain ⟨a, ha, rfl⟩ := List.mem_map.1 hp
    obtain ⟨hrange, -, hlast⟩ := a.scanPage_covers pre (after.getD []) limit
    obtain ⟨sr, hsr, hreg⟩ := List.mem_map.1 (hlast hmore)
    obtain ⟨ar, hget, hlo, hup, -⟩ := hrange sr hsr
    rw [← h.mem_range i hafter]
    have hnext : (pageOf pre (after.getD []) limit a).next = sr.reg := hreg.symm
    exact ⟨a, ha, ar, hnext ▸ hget, hnext ▸ hlo, hnext ▸ hup⟩

end page

/-- The pages of a majority scan, followed until there is no cursor: no register is in them twice,
they are in order and cursors advance. A page has the registers with the prefix, behind the cursor
it was asked with and up to its own, that a voter replying to it holds; all together they have those
that a replying voter holds where the same voters reply to every page. A row that is not undecided
is accepted at its ballot by every voter that replied to its page, with no promise above. -/
theorem scan_exact (h : Replying v stores heard pre) :
    ∃ ps n, (∀ fuel ≥ n, mergedPages v stores heard pre limit fuel = some ps) ∧
      (ps.flatMap Prod.fst).Pairwise (fun r s => r.reg < s.reg) ∧
      (ps.filterMap Prod.snd).Pairwise (· < ·) ∧
      (∀ i p, ps[i]? = some p → (∀ reg, (∃ r ∈ p.1, r.reg = reg) ↔
          (pre <+: reg ∧ ∃ id ∈ heard i, ∃ ar, (stores id).rows.get reg = some ar) ∧
            (∀ k ∈ Cursor.asked none ps i, k < reg) ∧ ∀ k ∈ p.2, reg ≤ k) ∧
        ∀ r ∈ p.1, r.undecided = false → ∀ id ∈ heard i, r.row.accepted ≠ ⊥ ∧
          ∃ ar, (stores id).rows.get r.reg = some ar ∧ ar.accepted = r.row.accepted ∧
            ar.promised ≤ r.row.accepted) ∧
      ∀ ids : List NodeID, (∀ i id, id ∈ heard i ↔ id ∈ ids) → ∀ reg,
        (∃ r ∈ ps.flatMap Prod.fst, r.reg = reg) ↔
          pre <+: reg ∧ ∃ id ∈ ids, ∃ ar, (stores id).rows.get reg = some ar := by
  have hnone : ∀ k ∈ (none : Option Bytes), k ∈ held stores v.voterIDs pre := by simp
  obtain ⟨ps, hps, hreads⟩ := Cursor.pages_exact h.held_subset
    (fun i after hafter => ⟨_, h.mergedPage_eq i after, h.exact_page i hafter⟩) (i := 0) hnone
    (Nat.lt_succ_self _)
  refine ⟨ps, _, fun fuel hf => Cursor.pages_mono hf hps, hreads.sorted,
    by simpa using hreads.cursors, fun i p hp => ?_, fun ids hids reg => ?_⟩
  · obtain ⟨hf, hexact⟩ := hreads.page i p hp
    rw [Nat.zero_add] at hf hexact
    refine ⟨fun reg => by rw [hexact.mem, mem_held], fun r hr hset id hid => ?_⟩
    rw [h.mergedPage_eq] at hf
    obtain rfl := Option.some.inj hf
    rw [merged, ← List.length_map stores] at hr
    exact settled_of_acceptors hr hset (List.mem_map_of_mem hid)
  · have hheld : ∀ i, held stores (heard i) pre = held stores ids pre := fun i => by
      ext reg
      simp only [mem_held, hids i]
    rw [funext hheld] at hreads
    rw [hreads.mem_iff, mem_held]

namespace Pair

def view : View :=
  { incarnation := 1, epoch := 1, version := 1, voters := [⟨1, 0⟩, ⟨2, 0⟩, ⟨3, 0⟩] }

def row : AcceptorRow := ⟨⟨1, 1⟩, ⟨1, 1⟩, [9], true⟩

/-- The first voter is missing a row that the others have, and they one of its. -/
def rows (id : NodeID) : KV Bytes AcceptorRow :=
  if id = 1 then (KV.empty.set [97] row).set [98] row else (KV.empty.set [97] row).set [99] row

/-- A voter with its rows. -/
def store (id : NodeID) : Acceptor :=
  { self := id, installed := some view, marker := some 0, rows := rows id }

/-- The first page is replied to by the first two voters, the others by the last two. -/
def hears (i : ℕ) : List NodeID := if i = 0 then [2, 1] else [2, 3]

theorem replying : Replying view store hears [] where
  voters i := by
    unfold hears
    split_ifs <;> decide
  quorum i := by
    unfold hears
    split_ifs <;> decide
  serves i := by
    unfold hears
    split_ifs <;> decide
  names id hid reg r hget _ := by
    have hok : ∀ id ∈ view.voterIDs, ∀ e ∈ (rows id).entries, e.1 ≠ [] ∧ 255 ∉ e.1 := by
      decide +kernel
    exact hok id hid (reg, r) (KV.get_eq_some.1 hget)

end Pair

/-- Two of three voters reply, a row at a time, and not the same two to every page. -/
theorem scan_exact_pair :
    ∃ ps n, (∀ fuel ≥ n, mergedPages Pair.view Pair.store Pair.hears [] 1 fuel = some ps) ∧
      (ps.flatMap Prod.fst).Pairwise (fun r s => r.reg < s.reg) ∧
      ∀ i p, ps[i]? = some p → ∀ r ∈ p.1, r.undecided = false → ∀ id ∈ Pair.hears i,
        ∃ ar, (Pair.store id).rows.get r.reg = some ar ∧ ar.accepted = r.row.accepted := by
  have h : ∃ ps n, (∀ fuel ≥ n,
      mergedPages Pair.view Pair.store Pair.hears [] 1 fuel = some ps) ∧ _ :=
    scan_exact Pair.replying
  obtain ⟨ps, n, hps, hsorted, -, hpage, -⟩ := h
  refine ⟨ps, n, hps, hsorted, fun i p hp r hr hset id hid => ?_⟩
  obtain ⟨-, ar, hget, hacc, -⟩ := (hpage i p hp).2 r hr hset id hid
  exact ⟨ar, hget, hacc⟩

/-- A register without a name is at the end of the first page, and ends the scan: the cursor it
gives is none. And a voter that holds a register replies to the first page, but not to the one in
whose range the register is. -/
theorem scan_misses :
    (mergedPages Alone.view (Alone.store ((KV.empty.set [] Pair.row).set [97] Pair.row))
        (fun _ => [1]) [] 1 9 = some [([⟨[], Pair.row.toRow, false⟩], none)] ∧
      (Alone.store ((KV.empty.set [] Pair.row).set [97] Pair.row) 1).rows.get [97] =
        some Pair.row) ∧
    mergedPages Pair.view Pair.store Pair.hears [] 1 9 =
        some [([⟨[97], Pair.row.toRow, false⟩], some [97]), ([⟨[99], Pair.row.toRow, false⟩], none)] ∧
      1 ∈ Pair.hears 0 ∧ (Pair.store 1).rows.get [98] = some Pair.row := by
  decide +kernel

end Dstore.Listing

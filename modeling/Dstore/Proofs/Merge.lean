import Dstore.Lib.Lex
import Dstore.Reads
import Dstore.Proofs.Rounds
import Dstore.Proofs.Serve

/-!
# What reads and scans report

A fast read that returns a row has it from a majority of voters, each of which reported that
accepted ballot. A row of a scan that is not undecided was in the page of every voter that answered.
-/

namespace Dstore

variable {v : View} {reg : Bytes} {row : Row}

section read

variable {sr : ScanRow} {L : List ScanRow} {pre : Bytes}

variable {ps : List Page} {r : MergedRow} {pre after : Bytes}

theorem agree_eq_row {rows : List Row} (h : agree rows = .row row) :
    row ∈ rows ∧ ∀ r ∈ rows, r.accepted = row.accepted := by
  cases rows with
  | nil => cases h
  | cons r rest =>
    simp only [agree] at h
    split_ifs at h with hall
    cases h
    exact ⟨by simp, fun r' hr' => (List.mem_cons.1 hr').elim (fun h => h ▸ rfl) (hall r')⟩

/-- The loop of a read returns a row that a majority of the replies it counted agree on. -/
theorem read_eq_row : ∀ {rs : List (NodeID × Option Answer)} {seen : List (NodeID × Row)},
    read v (rs.map Prod.snd) (seen.map Prod.snd) = .row row →
    ∃ got : List (NodeID × Row), (got.map Prod.fst).Sublist (seen.map Prod.fst ++ rs.map Prod.fst) ∧
      v.quorum ≤ got.length ∧ (∃ p ∈ got, p.2 = row) ∧ ∀ p ∈ got, p.2.accepted = row.accepted ∧
        (p ∈ seen ∨ ∃ ans, (p.1, some ans) ∈ rs ∧ readRow v ans = some p.2)
  | [], seen, h => by
    simp only [List.map_nil, read] at h
    split_ifs at h with hlt
    obtain ⟨hmem, hall⟩ := agree_eq_row h
    refine ⟨seen, by simp, by simpa using hlt, List.mem_map.1 hmem, fun p hp => ⟨?_, .inl hp⟩⟩
    exact hall _ (List.mem_map_of_mem hp)
  | (w, r) :: rs, seen, h => by
    have hskip : read v (rs.map Prod.snd) (seen.map Prod.snd) = .row row → _ := read_eq_row
    simp only [List.map_cons, read] at h
    split at h
    · cases h
    · rename_i acc prom val has hc
      obtain ⟨ans, rfl⟩ : ∃ ans, r = some ans := by
        cases r with
        | none => simp [classify] at hc
        | some ans => exact ⟨ans, rfl⟩
      have hrow : readRow v ans = some ⟨acc, val, has⟩ := by simp [readRow, hc]
      have hseen : seen.map Prod.snd ++ [Row.mk acc val has] =
          (seen ++ [(w, Row.mk acc val has)]).map Prod.snd := by simp
      simp only [hseen] at h
      split_ifs at h with hq
      · obtain ⟨hmem, hall⟩ := agree_eq_row h
        refine ⟨seen ++ [(w, ⟨acc, val, has⟩)], ?_, by simpa using hq, List.mem_map.1 hmem,
          fun p hp => ⟨hall _ (List.mem_map_of_mem hp), ?_⟩⟩
        · simp
        · rcases List.mem_append.1 hp with hp | hp
          · exact .inl hp
          · rw [List.mem_singleton.1 hp]
            exact .inr ⟨ans, by simp, hrow⟩
      · obtain ⟨got, hsub, hlen, hrow', hgot⟩ := read_eq_row h
        refine ⟨got, by simpa using hsub, hlen, hrow', fun p hp => ⟨(hgot p hp).1, ?_⟩⟩
        rcases (hgot p hp).2 with hp | ⟨ans', hmem, hr⟩
        · rcases List.mem_append.1 hp with hp | hp
          · exact .inl hp
          · rw [List.mem_singleton.1 hp]
            exact .inr ⟨ans, by simp, hrow⟩
        · exact .inr ⟨ans', by simp [hmem], hr⟩
    · obtain ⟨got, hsub, hlen, hrow, hgot⟩ := hskip h
      refine ⟨got, hsub.trans (by simp), hlen, hrow, fun p hp => ⟨(hgot p hp).1, ?_⟩⟩
      rcases (hgot p hp).2 with hp | ⟨ans, hmem, hr⟩
      · exact .inl hp
      · exact .inr ⟨ans, by simp [hmem], hr⟩

end read

section scan

/-- The pages of a scan are replies of different voters. -/
theorem pages_eq_ok : ∀ {rs : List (NodeID × Option Answer)} {ps : List Page},
    pages v (rs.map Prod.snd) = .ok ps →
    ∃ got : List (NodeID × Page), got.map Prod.snd = ps ∧
      (got.map Prod.fst).Sublist (rs.map Prod.fst) ∧
      ∀ p ∈ got, (p.1, some ⟨v.incarnation, v.epoch,
        .scanReply p.2.rows p.2.more p.2.next⟩) ∈ rs
  | [], ps, h => by
    cases h
    exact ⟨[], rfl, by simp, by simp⟩
  | (w, r) :: rs, ps, h => by
    simp only [List.map_cons, pages] at h
    split at h
    · cases h
    · rename_i rows more next hc
      obtain ⟨ans, rfl⟩ : ∃ ans, r = some ans := by
        cases r with
        | none => simp [classify] at hc
        | some ans => exact ⟨ans, rfl⟩
      rcases hps : pages v (rs.map Prod.snd) with nv | ps'
      · simp [hps, Except.map] at h
      · simp only [hps, Except.map, Except.ok.injEq] at h
        obtain ⟨got, hsnd, hsub, hgot⟩ := pages_eq_ok hps
        refine ⟨(w, ⟨rows, more, next⟩) :: got, by simp [hsnd, h], hsub.cons_cons _, ?_⟩
        intro p hp
        rcases List.mem_cons.1 hp with rfl | hp
        · simp [classify_ok hc]
        · simp [hgot p hp]
    · obtain ⟨got, hsnd, hsub, hgot⟩ := pages_eq_ok h
      exact ⟨got, hsnd, hsub.trans (by simp), fun p hp => by simp [hgot p hp]⟩

/-- What the merge has made of all rows of one register. -/
structure MergeOk (L : List ScanRow) (reg : Bytes) (a : Merge) : Prop where
  count : a.count = L.countP fun sr => sr.reg = reg
  agree : a.disagree = false → ∀ sr ∈ L, sr.reg = reg → sr.accepted = a.row.accepted
  stub : a.stub = false → ∀ sr ∈ L, sr.reg = reg → sr.accepted ≠ ⊥
  top : ∀ sr ∈ L, sr.reg = reg → sr.accepted ≤ a.row.accepted
  promised : ∀ sr ∈ L, sr.reg = reg → sr.promised ≤ a.promised
  source : ∃ sr ∈ L, sr.reg = reg ∧ a.row = ⟨sr.accepted, sr.value, sr.hasValue⟩

/-- What the merge has made of the rows. -/
def Merged (L : List ScanRow) (m : KV Bytes Merge) : Prop :=
  ∀ reg, (m.get reg = none → ∀ sr ∈ L, sr.reg ≠ reg) ∧ ∀ a, m.get reg = some a → MergeOk L reg a

theorem mergeOk_first (hnone : ∀ s ∈ L, s.reg ≠ sr.reg) :
    MergeOk (L ++ [sr]) sr.reg
      ⟨⟨sr.accepted, sr.value, sr.hasValue⟩, sr.promised, 1, false, sr.accepted.isZero⟩ := by
  have hzero : L.countP (fun s => decide (s.reg = sr.reg)) = 0 := by
    simpa [List.countP_eq_zero] using hnone
  have honly : ∀ s ∈ L ++ [sr], s.reg = sr.reg → s = sr := by
    intro s hs he
    rcases List.mem_append.1 hs with hs | hs
    · exact absurd he (hnone s hs)
    · exact List.mem_singleton.1 hs
  refine ⟨by simp [List.countP_append, hzero], fun _ s hs he => ?_, fun hst s hs he => ?_,
    fun s hs he => ?_, fun s hs he => ?_, ⟨sr, by simp, rfl, rfl⟩⟩
  · rw [honly s hs he]
  · rw [honly s hs he]
    exact Ballot.isZero_eq_false.1 hst
  · rw [honly s hs he]
  · rw [honly s hs he]

theorem MergeOk.next {a : Merge} (hok : MergeOk L sr.reg a) :
    MergeOk (L ++ [sr]) sr.reg
      { row := if a.row.accepted < sr.accepted then ⟨sr.accepted, sr.value, sr.hasValue⟩ else a.row
        promised := max a.promised sr.promised
        count := a.count + 1
        disagree := a.disagree || sr.accepted ≠ a.row.accepted
        stub := a.stub || sr.accepted.isZero } := by
  have hboth : ∀ s ∈ L ++ [sr], s ∈ L ∨ s = sr := by simp
  refine ⟨by simp [List.countP_append, hok.count], fun hd s hs he => ?_, fun hst s hs he => ?_,
    fun s hs he => ?_, fun s hs he => ?_, ?_⟩
  · simp only [Bool.or_eq_false_iff, decide_eq_false_iff_not, not_not] at hd
    have hrow : ¬ a.row.accepted < sr.accepted := by simp [hd.2]
    simp only [hrow, if_false]
    rcases hboth s hs with hs | rfl
    · exact hok.agree hd.1 s hs he
    · exact hd.2
  · simp only [Bool.or_eq_false_iff] at hst
    rcases hboth s hs with hs | rfl
    · exact hok.stub hst.1 s hs he
    · exact Ballot.isZero_eq_false.1 hst.2
  · dsimp only
    split_ifs with hlt
    · rcases hboth s hs with hs | rfl
      · exact (hok.top s hs he).trans hlt.le
      · exact le_rfl
    · rcases hboth s hs with hs | rfl
      · exact hok.top s hs he
      · exact not_lt.1 hlt
  · rcases hboth s hs with hs | rfl
    · exact (hok.promised s hs he).trans (le_max_left _ _)
    · exact le_max_right _ _
  · dsimp only
    split_ifs with hlt
    · exact ⟨sr, by simp, rfl, rfl⟩
    · obtain ⟨s, hs, hsource⟩ := hok.source
      exact ⟨s, by simp [hs], hsource⟩

theorem MergeOk.other {a : Merge} (hok : MergeOk L reg a) (hreg : sr.reg ≠ reg) :
    MergeOk (L ++ [sr]) reg a := by
  have hold : ∀ s ∈ L ++ [sr], s.reg = reg → s ∈ L := by
    intro s hs he
    rcases List.mem_append.1 hs with hs | hs
    · exact hs
    · exact absurd (List.mem_singleton.1 hs ▸ he) hreg
  refine ⟨by simp [List.countP_append, hok.count, hreg],
    fun hd s hs he => hok.agree hd s (hold s hs he) he,
    fun hst s hs he => hok.stub hst s (hold s hs he) he,
    fun s hs he => hok.top s (hold s hs he) he,
    fun s hs he => hok.promised s (hold s hs he) he, ?_⟩
  obtain ⟨s, hs, hsource⟩ := hok.source
  exact ⟨s, by simp [hs], hsource⟩

theorem Merged.mergeRow {m : KV Bytes Merge} (h : Merged L m) (sr : ScanRow) :
    Merged (L ++ [sr]) (mergeRow m sr) := by
  intro reg
  by_cases hreg : reg = sr.reg
  · subst hreg
    rcases hg : m.get sr.reg with _ | a
    · simp only [Dstore.mergeRow, hg, KV.get_set_self]
      refine ⟨by simp, fun a ha => ?_⟩
      cases ha
      exact mergeOk_first ((h sr.reg).1 hg)
    · simp only [Dstore.mergeRow, hg, KV.get_set_self]
      refine ⟨by simp, fun a' ha => ?_⟩
      cases ha
      exact ((h sr.reg).2 a hg).next
  · have hget : (Dstore.mergeRow m sr).get reg = m.get reg := by
      unfold Dstore.mergeRow
      split <;> exact KV.get_set_of_ne _ _ hreg
    rw [hget]
    refine ⟨fun hn s hs => ?_, fun a ha => ((h reg).2 a ha).other (Ne.symm hreg)⟩
    rcases List.mem_append.1 hs with hs | hs
    · exact (h reg).1 hn s hs
    · rw [List.mem_singleton.1 hs]
      exact Ne.symm hreg

theorem Merged.foldl : ∀ {L' L : List ScanRow} {m : KV Bytes Merge}, Merged L m →
    Merged (L ++ L') (L'.foldl Dstore.mergeRow m)
  | [], L, m, h => by simpa using h
  | sr :: L', L, m, h => by
    have ih : Merged (L ++ [sr] ++ L') (L'.foldl Dstore.mergeRow (Dstore.mergeRow m sr)) :=
      (h.mergeRow sr).foldl
    simpa using ih

theorem merged_rows (L : List ScanRow) : Merged L (L.foldl Dstore.mergeRow .empty) := by
  have h : Merged ([] ++ L) (L.foldl Dstore.mergeRow .empty) :=
    Merged.foldl fun reg => ⟨by simp, by simp⟩
  simpa using h

/-- Where as many rows carry a register as there are pages, and none carries it twice, every page
has it. -/
theorem mem_of_countP : ∀ {ls : List (List ScanRow)},
    (∀ l ∈ ls, (l.map ScanRow.reg).Nodup) →
    (ls.flatten.countP fun sr => sr.reg = reg) ≤ ls.length ∧
      (ls.length ≤ (ls.flatten.countP fun sr => sr.reg = reg) →
        ∀ l ∈ ls, ∃ sr ∈ l, sr.reg = reg)
  | [], _ => by simp
  | l :: ls, hnd => by
    obtain ⟨hle, hmem⟩ := mem_of_countP fun l' hl' => hnd l' (List.mem_cons_of_mem l hl')
    have hone : (l.countP fun sr => sr.reg = reg) ≤ 1 := by
      have := List.nodup_iff_count_le_one.1 (hnd l (by simp)) reg
      rw [List.count, List.countP_map] at this
      exact (List.countP_congr fun sr _ => by simp).trans_le this
    simp only [List.flatten_cons, List.countP_append, List.length_cons]
    refine ⟨by omega, fun hlen l' hl' => ?_⟩
    rcases List.mem_cons.1 hl' with rfl | hl'
    · have hpos : 0 < l'.countP fun sr => sr.reg = reg := by omega
      simpa using List.countP_pos_iff.1 hpos
    · exact hmem (by omega) l' hl'

/-- A register that is not undecided has one ballot in every page, and no promise above it. -/
theorem mergedRows_settled (hnd : ∀ p ∈ ps, (p.rows.map ScanRow.reg).Nodup)
    (hr : r ∈ mergedRows ps.length ((mergeInput ps).foldl mergeRow .empty))
    (hset : r.undecided = false) :
    ∀ p ∈ ps, ∃ sr ∈ p.rows, sr.reg = r.reg ∧ sr.accepted = r.row.accepted ∧ sr.accepted ≠ ⊥ ∧
      sr.promised ≤ r.row.accepted := by
  obtain ⟨⟨reg, a⟩, hmem, rfl⟩ := List.mem_map.1 hr
  simp only [Bool.or_eq_false_iff, decide_eq_false_iff_not, not_lt] at hset
  obtain ⟨⟨⟨hdis, hcount⟩, hprom⟩, hstub⟩ := hset
  have hok := (merged_rows (mergeInput ps) reg).2 a (KV.get_eq_some.2 hmem)
  -- the cut filters by register only, so it may be taken page by page
  have hflat : mergeInput ps =
      (ps.map fun p => p.rows.filter fun sr => ∀ k ∈ cut ps, sr.reg ≤ k).flatten := by
    rw [mergeInput, List.filter_flatMap, List.flatMap_def]
  have hnd' : ∀ l ∈ ps.map fun p => p.rows.filter fun sr => ∀ k ∈ cut ps, sr.reg ≤ k,
      (l.map ScanRow.reg).Nodup := by
    intro l hl
    obtain ⟨p, hp, rfl⟩ := List.mem_map.1 hl
    exact (hnd p hp).sublist (List.filter_sublist.map _)
  have hlen : (ps.map fun p => p.rows.filter fun sr => ∀ k ∈ cut ps, sr.reg ≤ k).length ≤
      (ps.map fun p => p.rows.filter fun sr => ∀ k ∈ cut ps, sr.reg ≤ k).flatten.countP
        fun sr => sr.reg = reg := by
    rw [← hflat, ← hok.count, List.length_map]
    exact hcount
  intro p hp
  obtain ⟨sr, hsr, hreg⟩ := (mem_of_countP hnd').2 hlen _ (List.mem_map_of_mem hp)
  have hin : sr ∈ mergeInput ps := by
    rw [hflat]
    exact List.mem_flatten.2 ⟨_, List.mem_map_of_mem hp, hsr⟩
  exact ⟨sr, (List.mem_filter.1 hsr).1, hreg, hok.agree hdis sr hin hreg,
    hok.stub hstub sr hin hreg, (hok.promised sr hin hreg).trans hprom⟩

theorem cut_spec (ps : List Page) :
    (∀ p ∈ ps, p.more → p.next ≠ [] → ∃ k ∈ cut ps, k ≤ p.next) ∧
      ∀ k ∈ cut ps, ∃ p ∈ ps, p.more ∧ p.next = k ∧ k ≠ [] := by
  unfold cut
  induction ps using List.reverseRecOn with
  | nil => simp
  | append_singleton ps p ih =>
    rw [List.foldl_append, List.foldl_cons, List.foldl_nil]
    set c := ps.foldl
      (fun c p => if p.more ∧ p.next ≠ [] ∧ ∀ k ∈ c, p.next < k then some p.next else c) none
    obtain ⟨hle, hmem⟩ := ih
    split_ifs with hc
    · refine ⟨fun q hq hm hne => ⟨p.next, rfl, ?_⟩, fun k hk => ⟨p, by simp, hc.1, ?_⟩⟩
      · rcases List.mem_append.1 hq with hq | hq
        · obtain ⟨k, hk, hkq⟩ := hle q hq hm hne
          exact (hc.2.2 k hk).le.trans hkq
        · rw [List.mem_singleton.1 hq]
      · rw [← Option.mem_some_iff.1 hk]
        exact ⟨rfl, hc.2.1⟩
    · refine ⟨fun q hq hm hne => ?_, fun k hk => ?_⟩
      · rcases List.mem_append.1 hq with hq | hq
        · exact hle q hq hm hne
        · rw [List.mem_singleton.1 hq] at hm hne ⊢
          push Not at hc
          exact hc hm hne
      · obtain ⟨q, hq, hk⟩ := hmem k hk
        exact ⟨q, by simp [hq], hk⟩

theorem Acceptor.upper_eq (pre : Bytes) : ∃ t, Acceptor.upper pre = pre ++ 255 :: t := by
  unfold Acceptor.upper
  split_ifs with h
  · exact ⟨[], by rw [h]; rfl⟩
  · exact ⟨_, rfl⟩

theorem Acceptor.range_iff {after : Option Bytes} (hafter : ∀ k ∈ after, k ≠ [] ∧ pre <+: k)
    (hname : pre <+: reg → 255 ∉ reg) :
    lower pre (after.getD []) ≤ reg ∧ reg < upper pre ↔ pre <+: reg ∧ ∀ k ∈ after, k < reg := by
  obtain ⟨t, hup⟩ := upper_eq pre
  have hrange : pre <+: reg → pre ≤ reg ∧ reg < pre ++ 255 :: t := fun hp =>
    LexOrder.mem_range_of_prefix hp (hname hp)
  rw [hup]
  rcases after with _ | k
  · simp only [lower, Option.getD_none, if_true, Option.not_mem_none, false_implies, implies_true,
      and_true]
    exact ⟨fun h => LexOrder.prefix_of_mem_range h.1 h.2, hrange⟩
  · obtain ⟨hne, u, rfl⟩ := hafter k rfl
    have hlow : lower pre (pre ++ u) = pre ++ u ++ [0] := by rw [lower, if_neg hne]
    have hlt : pre ++ u ++ [0] ≤ reg ↔ pre ++ u < reg := LexOrder.snoc_bot_le
    have hle : pre ≤ pre ++ u := by
      cases u with
      | nil => simp
      | cons b u => exact (LexOrder.lt_append (by simp)).le
    rw [Option.getD_some, hlow, hlt]
    simp only [Option.mem_some_iff, forall_eq']
    constructor
    · rintro ⟨h1, h2⟩
      exact ⟨LexOrder.prefix_of_mem_range (hle.trans h1.le) h2, h1⟩
    · rintro ⟨hp, h1⟩
      exact ⟨h1, (hrange hp).2⟩

/-- The page of one acceptor. -/
def pageOf (pre after : Bytes) (limit : ℤ) (a : Acceptor) : Page :=
  ⟨(a.scanPage pre after limit).1, (a.scanPage pre after limit).2,
    Acceptor.lastReg (a.scanPage pre after limit).1⟩

/-- What the merge is given are the rows up to the cut. -/
theorem mem_mergeInput {as : List Acceptor} {limit : ℤ}
    (hnil : Acceptor.lower pre after = [] → ∀ a ∈ as, a.rows.get [] = none) :
    sr ∈ mergeInput (as.map (pageOf pre after limit)) ↔
      (∃ a ∈ as, ∃ r, a.rows.get sr.reg = some r ∧ Acceptor.lower pre after ≤ sr.reg ∧
        sr.reg < Acceptor.upper pre ∧
        sr = ⟨sr.reg, r.promised, r.accepted, r.value, r.hasValue⟩) ∧
      ∀ k ∈ cut (as.map (pageOf pre after limit)), sr.reg ≤ k := by
  unfold mergeInput
  rw [List.mem_filter, decide_eq_true_eq]
  refine and_congr_left fun hcut => ?_
  rw [List.mem_flatMap]
  constructor
  · rintro ⟨p, hp, hsr⟩
    obtain ⟨a, ha, rfl⟩ := List.mem_map.1 hp
    exact ⟨a, ha, (a.scanPage_covers pre after limit).1 sr hsr⟩
  · rintro ⟨a, ha, r, hget, hlo, hup, hsr⟩
    refine ⟨_, List.mem_map_of_mem ha, ?_⟩
    obtain ⟨hrange, hall, hlast⟩ := a.scanPage_covers pre after limit
    rw [hsr]
    refine hall sr.reg r hget hlo hup fun hm => ?_
    obtain ⟨l, hl, hreg⟩ := List.mem_map.1 (hlast hm)
    have hne : Acceptor.lastReg (a.scanPage pre after limit).1 ≠ [] := by
      intro hlast
      obtain ⟨r', hget', hlo, -⟩ := hrange l hl
      rw [hreg, hlast] at hlo hget'
      rw [hnil (LexOrder.nil_of_le_nil hlo) a ha] at hget'
      cases hget'
    obtain ⟨k, hk, hle⟩ := (cut_spec _).1 (pageOf pre after limit a) (List.mem_map_of_mem ha) hm hne
    exact (hcut k hk).trans hle

theorem named_of_isPrefix {as : List Acceptor} (hpre : pre ≠ []) :
    Acceptor.lower pre after = [] → ∀ a ∈ as, a.rows.get [] = none := by
  unfold Acceptor.lower
  split_ifs
  · exact fun h => absurd h hpre
  · simp

theorem settled_of_acceptors {as : List Acceptor} {limit : ℤ}
    (hr : r ∈ mergedRows as.length
      ((mergeInput (as.map (pageOf pre after limit))).foldl mergeRow .empty))
    (hset : r.undecided = false) {a : Acceptor} (ha : a ∈ as) :
    r.row.accepted ≠ ⊥ ∧ ∃ ar, a.rows.get r.reg = some ar ∧ ar.accepted = r.row.accepted ∧
      ar.promised ≤ r.row.accepted := by
  have hnd : ∀ p ∈ as.map (pageOf pre after limit), (p.rows.map ScanRow.reg).Nodup := by
    intro p hp
    obtain ⟨a, -, rfl⟩ := List.mem_map.1 hp
    exact a.scanPage_nodup _ _ _
  rw [← List.length_map (pageOf pre after limit)] at hr
  obtain ⟨sr, hsr, hreg, hacc, hne, hprom⟩ :=
    mergedRows_settled hnd hr hset _ (List.mem_map_of_mem ha)
  obtain ⟨ar, hget, -, -, hshape⟩ := (a.scanPage_covers _ _ _).1 sr hsr
  rw [hshape] at hacc hprom
  exact ⟨fun h => hne (by rw [hshape]; exact hacc.trans h), ar, hreg ▸ hget, hacc, hprom⟩

theorem mergedRows_sorted (n : ℕ) (m : KV Bytes Merge) :
    (mergedRows n m).Pairwise fun r s => r.reg < s.reg :=
  m.sorted.map _ fun _ _ h => h

theorem mem_mergedRows {n : ℕ} (hr : r ∈ mergedRows n ((mergeInput ps).foldl mergeRow .empty)) :
    ∃ a, MergeOk (mergeInput ps) r.reg a ∧ r.row = a.row ∧ r.undecided =
      (a.disagree || a.count < n || a.row.accepted < a.promised || a.stub) := by
  obtain ⟨⟨reg, a⟩, hmem, rfl⟩ := List.mem_map.1 hr
  exact ⟨a, (merged_rows (mergeInput ps) reg).2 a (KV.get_eq_some.2 hmem), rfl, rfl⟩

theorem exists_mergedRow (n : ℕ) (hsr : sr ∈ mergeInput ps) :
    ∃ r ∈ mergedRows n ((mergeInput ps).foldl mergeRow .empty), r.reg = sr.reg := by
  rcases hg : ((mergeInput ps).foldl mergeRow .empty).get sr.reg with _ | a
  · exact absurd rfl ((merged_rows (mergeInput ps) sr.reg).1 hg sr hsr)
  · exact ⟨_, List.mem_map_of_mem (KV.get_eq_some.1 hg), rfl⟩

end scan

end Dstore

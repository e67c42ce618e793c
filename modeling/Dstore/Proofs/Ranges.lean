import Dstore.Meta
import Dstore.Proofs.Merge

/-!
# Prefix ranges miss the names that go on with four bytes `0xff`

`DB.Scan`, and the pages of an acceptor's scan, visit all names with the prefix exactly if none goes
on with four bytes `0xff`.
-/

namespace Dstore

variable {ν : Type} {pre : Bytes}

/-- The keys with this prefix. -/
def startingWith (m : KV Bytes ν) (pre : Bytes) : List Bytes :=
  (m.entries.map Prod.fst).filter pre.isPrefixOf

/-- No key goes on with four bytes `0xff` behind the prefix. -/
def NoneBeyond (m : KV Bytes ν) (pre : Bytes) : Prop :=
  ∀ k ∈ m.entries.map Prod.fst, ¬ pre ++ [255, 255, 255, 255] <+: k

theorem mem_range {k : Bytes} : pre ≤ k ∧ k < pre ++ [255, 255, 255, 255] ↔
    pre <+: k ∧ ¬ pre ++ [255, 255, 255, 255] <+: k :=
  LexOrder.mem_range_top (n := 4)

theorem scan_eq_filter (m : KV Bytes ν) (pre : Bytes) :
    m.scan pre (pre ++ [255, 255, 255, 255]) = m.entries.filter fun e =>
      pre <+: e.1 ∧ ¬ pre ++ [255, 255, 255, 255] <+: e.1 :=
  List.filter_congr fun e _ => by simp only [mem_range]

theorem scan_of_noneBeyond {m : KV Bytes ν} (h : NoneBeyond m pre) :
    m.scan pre (pre ++ [255, 255, 255, 255]) =
      m.entries.filter fun e => pre.isPrefixOf e.1 := by
  rw [scan_eq_filter]
  refine List.filter_congr fun e he => ?_
  have hn := h e.1 (List.mem_map_of_mem he)
  rw [Bool.eq_iff_iff]
  simp [hn]

/-- The range has every key with the prefix exactly if there is none beyond it. -/
theorem scan_all_iff (m : KV Bytes ν) (pre : Bytes) :
    (m.scan pre (pre ++ [255, 255, 255, 255])).map Prod.fst = startingWith m pre ↔
      NoneBeyond m pre := by
  constructor
  · intro h k hk hbeyond
    have hin : k ∈ startingWith m pre := by
      simp only [startingWith, List.mem_filter, List.isPrefixOf_iff_prefix]
      exact ⟨hk, (List.prefix_append _ _).trans hbeyond⟩
    rw [← h, scan_eq_filter] at hin
    obtain ⟨e, he, rfl⟩ := List.mem_map.1 hin
    simp only [List.mem_filter, decide_eq_true_eq] at he
    exact he.2.2 hbeyond
  · intro h
    rw [startingWith, List.filter_map, scan_of_noneBeyond h]
    rfl

namespace Meta

theorem walk_filter (p : ν → Bool) : ∀ (es : List (Bytes × ν)) (ks : List Bytes),
    walk (fun ks k v => (if p v then ks ++ [k] else ks, true)) es ks =
      ks ++ (es.filter fun e => p e.2).map Prod.fst
  | [], ks => by simp [walk]
  | e :: es, ks => by
    rw [walk, if_pos rfl, walk_filter p es]
    by_cases hp : p e.2 <;> simp [hp]

end Meta

namespace Acceptor

variable {a : Acceptor}

/-- What a scan from the prefix to its end finds. -/
def ranged (a : Acceptor) (pre : Bytes) : Finset Bytes :=
  ((a.rows.scan pre (pre ++ [255, 255, 255, 255])).map Prod.fst).toFinset

theorem mem_ranged {reg : Bytes} : reg ∈ a.ranged pre ↔
    (∃ r, a.rows.get reg = some r) ∧ pre ≤ reg ∧ reg < pre ++ [255, 255, 255, 255] := by
  simp only [ranged, List.mem_toFinset, List.mem_map]
  constructor
  · rintro ⟨e, he, rfl⟩
    obtain ⟨hget, hrange⟩ := KV.mem_scan.1 he
    exact ⟨⟨e.2, hget⟩, hrange⟩
  · rintro ⟨⟨r, hget⟩, hrange⟩
    exact ⟨(reg, r), KV.mem_scan.2 ⟨hget, hrange⟩, rfl⟩

theorem lower_le {after : Option Bytes} (hpre : pre ≠ []) (hafter : ∀ k ∈ after, pre ≤ k)
    {reg : Bytes} : lower pre (after.getD []) ≤ reg ↔ pre ≤ reg ∧ ∀ k ∈ after, k < reg := by
  cases after with
  | none => simp [lower]
  | some k =>
    have hk := hafter k rfl
    have hne : k ≠ [] := fun h => hpre (LexOrder.nil_of_le_nil (h ▸ hk))
    have hlt : k ++ [0] ≤ reg ↔ k < reg := LexOrder.snoc_bot_le
    simp only [lower, Option.getD_some, if_neg hne, hlt, Option.mem_some_iff, forall_eq']
    exact ⟨fun h => ⟨hk.trans h.le, h⟩, fun h => h.2⟩

theorem le_lastReg {rows : List ScanRow} (hs : rows.Pairwise fun x y => x.reg < y.reg)
    {x : ScanRow} (hx : x ∈ rows) : x.reg ≤ lastReg rows := by
  rcases rows.eq_nil_or_concat with rfl | ⟨l, y, rfl⟩
  · simp at hx
  · rw [lastReg, List.concat_eq_append, List.getLast?_concat]
    rw [List.concat_eq_append, List.pairwise_append] at hs
    rcases List.mem_append.1 (List.concat_eq_append ▸ hx) with hx | hx
    · exact (hs.2.2 x hx y (by simp)).le
    · rw [List.mem_singleton.1 hx]
      rfl

theorem scanPage_sorted (a : Acceptor) (pre after : Bytes) (limit : ℤ) :
    (a.scanPage pre after limit).1.Pairwise fun x y => x.reg < y.reg := by
  have hs : ((a.rows.scan (lower pre after) (upper pre)).map Prod.fst).Pairwise (· < ·) :=
    List.pairwise_map.2 (a.rows.sorted.filter _)
  exact List.pairwise_map.1 (hs.sublist (page_sublist _ _ _))

/-- A page of one acceptor has its keys behind the cursor, up to its own. -/
theorem fetch_exact (hf : a.refuseIfForgetful = none) (hpre : pre ≠ []) (limit : ℕ → ℤ) (i : ℕ)
    {after : Option Bytes} (hafter : ∀ k ∈ after, k ∈ a.ranged pre) :
    ∃ p, a.fetch pre limit i after = some p ∧
      Cursor.Exact ScanRow.reg (a.ranged pre) after p := by
  obtain ⟨hsound, hall, hlast⟩ := a.scanPage_covers pre (after.getD []) (limit i)
  have hsorted := a.scanPage_sorted pre (after.getD []) (limit i)
  have hfetch : a.fetch pre limit i after = some ((a.scanPage pre (after.getD []) (limit i)).1,
      if (a.scanPage pre (after.getD []) (limit i)).2 then
        some (lastReg (a.scanPage pre (after.getD []) (limit i)).1) else none) := by
    rw [fetch, scan_eq _ _ _ hf]
  generalize a.scanPage pre (after.getD []) (limit i) = p at *
  have hup : upper pre = pre ++ [255, 255, 255, 255] := if_neg hpre
  have hlow : ∀ {reg}, lower pre (after.getD []) ≤ reg ↔ pre ≤ reg ∧ ∀ k ∈ after, k < reg :=
    lower_le hpre fun k hk => (mem_ranged.1 (hafter k hk)).2.1
  -- the registers of the range behind the cursor
  have hin : ∀ sr ∈ p.1, sr.reg ∈ a.ranged pre ∧ ∀ k ∈ after, k < sr.reg := by
    intro sr hsr
    obtain ⟨r, hget, hlo, hhi, -⟩ := hsound sr hsr
    obtain ⟨h1, h2⟩ := hlow.1 hlo
    exact ⟨mem_ranged.2 ⟨⟨r, hget⟩, h1, hup ▸ hhi⟩, h2⟩
  refine ⟨_, hfetch, hsorted, fun k => ⟨?_, ?_⟩, fun k hk => ?_⟩
  · rintro ⟨sr, hsr, rfl⟩
    refine ⟨(hin sr hsr).1, (hin sr hsr).2, fun j hj => ?_⟩
    split_ifs at hj with hm
    · cases hj
      exact le_lastReg hsorted hsr
    · cases hj
  · rintro ⟨hk, hbehind, hle⟩
    obtain ⟨⟨r, hget⟩, hlo, hhi⟩ := mem_ranged.1 hk
    exact ⟨_, hall k r hget (hlow.2 ⟨hlo, hbehind⟩) (hup ▸ hhi) fun hm => hle _ (by simp [hm]), rfl⟩
  · split_ifs at hk with hm
    · cases hk
      obtain ⟨sr, hsr, heq⟩ := List.mem_map.1 (hlast hm)
      exact heq ▸ hin sr hsr
    · cases hk

theorem scanAll_eq (hf : a.refuseIfForgetful = none) (hpre : pre ≠ []) (limit : ℕ → ℤ) :
    ∃ n, ∀ fuel ≥ n, a.scanAll pre limit fuel =
      some ((a.rows.scan pre (pre ++ [255, 255, 255, 255])).map Prod.fst) := by
  have hnone : ∀ k ∈ (none : Option Bytes), k ∈ a.ranged pre := by simp
  obtain ⟨ps, hps, hreads⟩ := Cursor.pages_exact (fun _ => Finset.Subset.refl _)
    (fun i _ => fetch_exact hf hpre limit i) (i := 0) hnone (Nat.lt_succ_self _)
  have heq : (ps.flatMap Prod.fst).map ScanRow.reg =
      (a.rows.scan pre (pre ++ [255, 255, 255, 255])).map Prod.fst := by
    refine List.Pairwise.eq_of_mem_iff (r := (· < ·)) (List.pairwise_map.2 hreads.sorted)
      (List.pairwise_map.2 (a.rows.sorted.filter _)) fun k => ?_
    rw [List.mem_map, hreads.mem_iff, ranged, List.mem_toFinset]
  exact ⟨_, fun fuel hfuel => (congrArg (Option.map _) (Cursor.pages_mono hfuel hps)).trans
    (congrArg some heq)⟩

end Acceptor

/-- With a prefix, whatever the database, the rows, the limits of the pages and the callback: the
pages of an acceptor that answers, and `DB.Scan`, visit the names with the prefix, each once and in
order, exactly if none goes on with four bytes `0xff`. -/
theorem ranges_exact_iff (hpre : pre ≠ []) (a : Acceptor) (hf : a.refuseIfForgetful = none)
    (limit : ℕ → ℤ) (d : Meta.DB) :
    ((∃ n, ∀ fuel ≥ n, a.scanAll pre limit fuel = some (startingWith a.rows pre)) ↔
        NoneBeyond a.rows pre) ∧
      ((∀ (σ : Type) (fn : σ → Bytes → Bytes → σ × Bool) (s : σ), Meta.scan d pre fn s =
          Meta.walk fn (d.entries.filter fun e => pre.isPrefixOf e.1) s) ↔
        NoneBeyond d pre) := by
  obtain ⟨n, hn⟩ := Acceptor.scanAll_eq hf hpre limit
  rw [← scan_all_iff a.rows, ← scan_all_iff d]
  refine ⟨⟨fun ⟨n', hn'⟩ => ?_, fun h => ⟨n, h ▸ hn⟩⟩, fun h => ?_, fun h => ?_⟩
  · have h := hn' _ (le_max_right n n')
    rw [hn _ (le_max_left n n')] at h
    exact Option.some.inj h
  · have h := h _ (fun ks k _ => (if true then ks ++ [k] else ks, true)) []
    rw [Meta.scan, Meta.walk_filter fun _ => true, Meta.walk_filter fun _ => true,
      List.filter_true, List.filter_true] at h
    rw [startingWith, List.filter_map]
    exact h
  · intro σ fn s
    rw [scan_all_iff] at h
    rw [Meta.scan, scan_of_noneBeyond h]

namespace Hash

/-- A token of one byte, repeated. -/
def all (b : Fin 256) : Bytes := List.replicate 32 b

/-- An acceptor with the row of such a token. -/
def acceptor (b : Fin 256) : Acceptor :=
  { self := 1, rows := KV.empty.set (tokenReg (all b)) { accepted := ⟨1, 1⟩, hasValue := true } }

end Hash

/-- A token and a pin whose bytes are `0xfe` are found. -/
theorem ranges_exact_iff_found :
    (∃ n, ∀ fuel ≥ n, (Hash.acceptor 254).scanAll prefixJoin (fun _ => 0) fuel =
        some [tokenReg (Hash.all 254)]) ∧
      Meta.count (Meta.pinKeys .empty 1 [Hash.all 254]) Meta.mkPin = 1 := by
  have hbeyond : NoneBeyond (Hash.acceptor 254).rows prefixJoin ∧
      NoneBeyond (Meta.pinKeys .empty 1 [Hash.all 254]) Meta.mkPin := by
    unfold NoneBeyond
    decide +kernel
  refine ⟨?_, ?_⟩
  · exact (ranges_exact_iff (by decide) (Hash.acceptor 254) rfl (fun _ => 0) .empty).1.2 hbeyond.1
  · exact (ranges_exact_iff (by decide) (Hash.acceptor 254) rfl (fun _ => 0) _).2.2 hbeyond.2 _ _ _

/-- A token whose hash starts with four bytes `0xff` is not listed, and a pin whose key's last eight
bytes do is not counted. -/
theorem beyond_the_range :
    (Hash.acceptor 255).scanAll prefixJoin (fun _ => 0) 9 = some [] ∧
      ((Hash.acceptor 255).row (tokenReg (Hash.all 255))).hasValue = true ∧
      Meta.count (Meta.pinKeys .empty 1 [Hash.all 255]) Meta.mkPin = 0 ∧
      (Meta.pinKeys .empty 1 [Hash.all 255]).get (Meta.mkPin ++ Meta.tailOf (Hash.all 255)) =
        some (beBytes 8 1) := by
  decide +kernel

end Dstore

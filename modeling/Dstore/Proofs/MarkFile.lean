import Dstore.MarkFile
import Dstore.Proofs.Index

/-!
# A mark read back sweeps like the mark in memory

The header and the keys come back as they were written, the keys in another order. What is eligible
is scanned again, and is what it was where the packs below the bound are unchanged and neither scan
failed. Where one did, the two sweeps agree exactly if what they differ in is nothing the predicate
looks at (`loadMark_sweeps_alike`).
-/

namespace Dstore.MarkFile

variable {V : Type} {F : Formats V} {segs : List (Segment Key)} {fails : ℕ → Option ℕ}
  {history : UInt64 → Option Pins.BarrierRecord}

theorem readKeys_flatMap : ∀ order : List Key, readKeys (order.flatMap Subtype.val) = order
  | [] => by
    rw [readKeys]
    simp
  | k :: order => by
    have hk := k.2
    have htake : (k.val ++ order.flatMap Subtype.val).take 32 = k.val := List.take_left' hk
    have hdrop : (k.val ++ order.flatMap Subtype.val).drop 32 = order.flatMap Subtype.val :=
      List.drop_left' hk
    rw [readKeys, List.flatMap_cons, dif_pos (by rw [List.length_append]; omega), hdrop,
      readKeys_flatMap order]
    congr 1
    exact Subtype.ext htake

theorem MarkState.header_length (ms : MarkState F) :
    4 + (F.header.enc ms.header).length < 2 ^ 32 := by
  have hle := F.header_le ms.header
  have hfits := ms.fits
  unfold maxFrame at hfits
  have hview : ms.header.view = F.view.enc ms.view := rfl
  rw [hview] at hle
  omega

/-- What is read back: all of the mark, the keys in the order they were written, and the packs
scanned again. -/
theorem loadMark_persistMark (ms : MarkState F) (order : List Key) :
    loadMark F segs fails history (persistMark ms order) = some
      { sweepInputFor history ms with
        eligible := scanEligible ms.eligBelow.toNat fails segs
        marked := order } := by
  have hlen := ms.header_length
  generalize hhdr : F.header.enc ms.header = hdr at hlen
  have hfile : persistMark ms order
      = (beBytes 4 hdr.length ++ hdr) ++ order.flatMap Subtype.val := by
    rw [persistMark, hhdr]
  have hfour : (persistMark ms order).take 4 = beBytes 4 hdr.length := by
    rw [hfile, List.append_assoc]
    exact List.take_left' (length_beBytes 4 _)
  have hstop : (4 + Placement.bigEndian ((persistMark ms order).take 4)) % 2 ^ 32
      = (beBytes 4 hdr.length ++ hdr).length := by
    rw [hfour, Placement.bigEndian_beBytes (by omega), List.length_append, length_beBytes,
      Nat.mod_eq_of_lt hlen]
  have hhead : ((persistMark ms order).take (beBytes 4 hdr.length ++ hdr).length).drop 4 = hdr := by
    rw [hfile, List.take_left]
    exact List.drop_left' (length_beBytes 4 _)
  have hrest : (persistMark ms order).drop (beBytes 4 hdr.length ++ hdr).length
      = order.flatMap Subtype.val := by
    rw [hfile, List.drop_left]
  have hle : (beBytes 4 hdr.length ++ hdr).length ≤ (persistMark ms order).length := by
    rw [hfile]
    exact (List.prefix_append _ _).length_le
  have hfour_le : 4 ≤ (beBytes 4 hdr.length ++ hdr).length := by
    rw [List.length_append, length_beBytes]
    omega
  rw [loadMark, if_neg (by omega), hstop, if_neg (by omega), hhead, hrest, ← hhdr, F.header.dec_enc]
  dsimp only
  rw [show ms.header.view = F.view.enc ms.view from rfl, F.view.dec_enc]
  dsimp only
  rw [readKeys_flatMap]
  rfl

/-- What the sweep's predicate sees of the pack a key was found in: nothing from the bound on. -/
def seen (below : ℕ) (found : Option ℕ) : Option ℕ := found.filter (· < below)

/-- Two scans make no difference to the sweep of a key: it is owned and marked, or owned and seen by
both or by neither, or not owned and seen in the same pack by both. -/
def SeenAlike (si : Pins.SweepInput Key) (found found' : Option ℕ) (k : Key) : Prop :=
  if si.owned k then k ∈ si.marked ∨ ((seen si.eligBelow found).isSome ↔
    (seen si.eligBelow found').isSome)
  else seen si.eligBelow found = seen si.eligBelow found'

section live

variable {P : Pins.Params Key} {s : Pins.State Key} {si : Pins.SweepInput Key}
  {cur : Key → Bool} {settled : ℕ → Bool} {k : Key}

theorem live_eq_seen : s.live P si cur settled k =
    (!s.isCorrupt k && match seen si.eligBelow (si.eligible k) with
      | none => true
      | some packID => s.pinned P k (si.count - 1) ||
          if si.owned k then decide (k ∈ si.marked) || si.overflow
          else cur k || !settled packID) := by
  unfold Pins.State.live
  cases s.isCorrupt k with
  | true => rfl
  | false =>
    rcases si.eligible k with _ | id
    · rfl
    · by_cases hb : si.eligBelow ≤ id
      · have hseen : seen si.eligBelow (some id) = none := by simp [seen, hb]
        simp only [hseen, if_pos hb]
        rfl
      · have hseen : seen si.eligBelow (some id) = some id := by simp [seen, not_le.1 hb]
        simp only [hseen, if_neg hb]
        by_cases hp : s.pinned P k (si.count - 1) <;> by_cases ho : si.owned k <;>
          by_cases hm : k ∈ si.marked <;> by_cases hc : cur k <;> simp [hp, ho, hm, hc]

/-- Another scan, and the marked keys in another order, make no difference to the sweep of a key,
whatever is pinned, corrupt, placed and settled, exactly if the predicate sees the same. -/
theorem live_alike_iff (P : Pins.Params Key) (si : Pins.SweepInput Key)
    (found : Key → Option ℕ) {marked : List Key} (hmarked : k ∈ marked ↔ k ∈ si.marked)
    (hover : si.overflow = false) :
    (∀ (s : Pins.State Key) (cur : Key → Bool) (settled : ℕ → Bool),
      s.live P { si with eligible := found, marked := marked } cur settled k =
        s.live P si cur settled k) ↔ SeenAlike si (found k) (si.eligible k) k := by
  simp only [live_eq_seen, hmarked, hover, SeenAlike]
  generalize seen si.eligBelow (found k) = new
  generalize seen si.eligBelow (si.eligible k) = old
  -- nothing is pinned or corrupt at the start, so there the packs alone decide
  have hstart : (Pins.start 0 : Pins.State Key).isCorrupt k = false ∧
      ∀ c, (Pins.start 0 : Pins.State Key).pinned P k c = false := ⟨rfl, fun _ => rfl⟩
  constructor
  · intro h
    have h := fun settled => h (Pins.start 0) (fun _ => false) settled
    simp only [hstart.1, hstart.2, Bool.not_false, Bool.true_and, Bool.false_or, Bool.or_false] at h
    split_ifs with ho
    · simp only [ho, if_true] at h
      have h := h fun _ => true
      refine or_iff_not_imp_left.2 fun hm => ?_
      cases new <;> cases old <;> simp_all
    · simp only [if_neg ho] at h
      cases new with
      | none =>
        have h := h fun _ => true
        cases old with
        | none => rfl
        | some id => simp at h
      | some id =>
        have h := h (· = id)
        cases old with
        | none => simp at h
        | some id' =>
          have h : id' = id := by simpa using h
          rw [h]
  · intro h s cur settled
    congr 1
    split_ifs at h with ho
    · simp only [ho, if_true]
      rcases h with hm | h
      · cases new <;> cases old <;> simp [hm]
      · cases new <;> cases old <;> simp_all
    · rw [h]

end live

/-- For every mark, whatever it marked, and every store whose packs below its bound are as they were
when the mark scanned them: the file is read back. The sweep input made from it gives the verdict of
the mark in memory, for every key, every current placement, and whatever is pinned, corrupt and
settled, exactly if the two scans are seen alike, and so wherever neither failed. -/
theorem loadMark_sweeps_alike (F : Formats V) (inWriteSet : V → Key → Bool) (ms : MarkState F)
    (scanned segs : List (Segment Key)) (fails fails' : ℕ → Option ℕ) (order : List Key)
    (history : UInt64 → Option Pins.BarrierRecord) (P : Pins.Params Key)
    (helig : ms.eligible = scanEligible ms.eligBelow.toNat fails scanned)
    (hsame : (segs.filter fun seg => seg.id < ms.eligBelow.toNat)
      = scanned.filter fun seg => seg.id < ms.eligBelow.toNat)
    (horder : order.Perm ms.marked) :
    ∃ si, loadMark F segs fails' history (persistMark ms order) = some si ∧
      (∀ k, (∀ (s : Pins.State Key) (cur : Key → Bool) (settled : ℕ → Bool),
        s.live P (si.toPins inWriteSet) cur settled k
          = s.live P ((sweepInputFor history ms).toPins inWriteSet) cur settled k) ↔
        SeenAlike ((sweepInputFor history ms).toPins inWriteSet)
          (scanEligible ms.eligBelow.toNat fails' scanned k)
          (scanEligible ms.eligBelow.toNat fails scanned k) k) ∧
      ((∀ id, fails id = none) → (∀ id, fails' id = none) →
        ∀ k (s : Pins.State Key) (cur : Key → Bool) (settled : ℕ → Bool),
          s.live P (si.toPins inWriteSet) cur settled k
            = s.live P ((sweepInputFor history ms).toPins inWriteSet) cur settled k) := by
  refine ⟨_, loadMark_persistMark ms order, fun k => ?_, fun hok hok' k s cur settled => ?_⟩
  · rw [← scanEligible_congr (fun _ => rfl) hsame, ← helig]
    exact live_alike_iff P ((sweepInputFor history ms).toPins inWriteSet) _ horder.mem_iff rfl
  · have hfails : ∀ id, fails' id = fails id := fun id => (hok' id).trans (hok id).symm
    have hread := scanEligible_congr hfails hsame
    refine (live_alike_iff P ((sweepInputFor history ms).toPins inWriteSet) _ horder.mem_iff
      rfl).2 ?_ s cur settled
    rw [hread, ← helig]
    unfold SeenAlike
    split_ifs
    · exact .inr Iff.rfl
    · rfl

theorem bigEndian_word (x : UInt64) : UInt64.ofNat (Placement.bigEndian (beBytes 8 x.toNat)) = x := by
  rw [Placement.bigEndian_beBytes (n := 8) x.toNat_lt, UInt64.ofNat_toNat]

/-- A header of three words, and the view behind them. -/
def words : Codec Header where
  enc h := beBytes 8 h.epoch.toNat ++ (beBytes 8 h.count.toNat ++
    (beBytes 8 h.eligBelow.toNat ++ h.view))
  dec b := some ⟨.ofNat (Placement.bigEndian (b.take 8)),
    .ofNat (Placement.bigEndian ((b.drop 8).take 8)),
    .ofNat (Placement.bigEndian (((b.drop 8).drop 8).take 8)), ((b.drop 8).drop 8).drop 8⟩
  dec_enc h := by
    have htake : ∀ (x : ℕ) (rest : Bytes), (beBytes 8 x ++ rest).take 8 = beBytes 8 x :=
      fun x rest => List.take_left' (length_beBytes 8 x)
    have hdrop : ∀ (x : ℕ) (rest : Bytes), (beBytes 8 x ++ rest).drop 8 = rest :=
      fun x rest => List.drop_left' (length_beBytes 8 x)
    simp only [htake, hdrop, bigEndian_word]

/-- A view that is its own encoding. -/
def plain : Formats Bytes where
  header := words
  view := ⟨id, some, fun _ => rfl⟩
  header_le h := by
    simp only [words, List.length_append, length_beBytes]
    omega

/-- A key of one byte, repeated. -/
def keyOf (d : Fin 256) : Key := ⟨List.ofFn fun _ : Fin 32 => d, List.length_ofFn⟩

def packs : List (Segment Key) := [⟨1, [keyOf 1, keyOf 2]⟩, ⟨3, [keyOf 1]⟩]

/-- A mark of epoch 7, with the packs as far as they could be read. -/
def markedBy (fails : ℕ → Option ℕ) (marked : List Key) : MarkState plain where
  epoch := 7
  count := 2
  eligBelow := 4
  view := [9]
  eligible := scanEligible 4 fails packs
  marked := marked
  fits := by decide

/-- Pins are kept for ten minutes. -/
def unpinned : Pins.Params Key where
  gcInterval := 20 * Pins.minute
  putTTL := 10 * Pins.minute
  gcInterval_gt := by decide
  putTTL_le := by decide
  tailOf k := Meta.tailOf k

/-- A pack was sealed since, and the keys were written the other way round. -/
theorem loadMark_sweeps_alike_later :
    ∃ si, loadMark plain (packs ++ [⟨4, [keyOf 2]⟩]) (fun _ => none) (fun _ => some ⟨6, 3, true⟩)
        (persistMark (markedBy (fun _ => none) [keyOf 1, keyOf 2]) [keyOf 2, keyOf 1]) = some si ∧
      ∀ k (s : Pins.State Key) (cur : Key → Bool) (settled : ℕ → Bool),
        s.live unpinned (si.toPins fun _ _ => true) cur settled k
          = s.live unpinned ((sweepInputFor (fun _ => some ⟨6, 3, true⟩)
              (markedBy (fun _ => none) [keyOf 1, keyOf 2])).toPins fun _ _ => true) cur settled k := by
  obtain ⟨si, hload, -, halike⟩ := loadMark_sweeps_alike plain (fun _ _ => true)
    (markedBy (fun _ => none) [keyOf 1, keyOf 2]) packs (packs ++ [⟨4, [keyOf 2]⟩]) (fun _ => none)
    (fun _ => none) [keyOf 2, keyOf 1] (fun _ => some ⟨6, 3, true⟩) unpinned rfl (by decide)
    (List.Perm.swap _ _ _)
  exact ⟨si, hload, halike (fun _ => rfl) fun _ => rfl⟩

/-- The index of pack 1 cannot be read when the mark starts, so its second key is not marked and the
sweep with the mark in memory keeps it. It can be read when the mark is loaded, and the sweep with
that drops the key. -/
theorem unread_key_dead :
    ∃ si ∈ loadMark plain packs (fun _ => none) (fun _ => some ⟨6, 3, true⟩)
        (persistMark (markedBy (fun id => if id = 1 then some 0 else none) [keyOf 1]) [keyOf 1]),
      (Pins.start 0).live unpinned (si.toPins fun _ _ => true) (fun _ => true) (fun _ => false)
        (keyOf 2) = false ∧
      (Pins.start 0).live unpinned ((sweepInputFor (fun _ => some ⟨6, 3, true⟩)
        (markedBy (fun id => if id = 1 then some 0 else none) [keyOf 1])).toPins fun _ _ => true)
        (fun _ => true) (fun _ => false) (keyOf 2) = true := by
  refine ⟨_, loadMark_persistMark _ _, ?_, ?_⟩ <;> decide +kernel

end Dstore.MarkFile

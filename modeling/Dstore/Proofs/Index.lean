import Dstore.Index

/-!
# The scan of the packs by the packs it scans

A key is found in the last pack below the bound whose scan goes through it. What is found is held;
all that is held is found where no scan fails.
-/

namespace Dstore

variable {κ : Type} {below : ℕ} {fails fails' : ℕ → Option ℕ} {segs segs' : List (Segment κ)}

theorem Segment.mem_of_mem_scanIndex {seg : Segment κ} {k : κ} :
    ∀ {f : Option ℕ}, k ∈ seg.scanIndex f → k ∈ seg.keys
  | none, h => h
  | some _, h => List.mem_of_mem_take h

variable [DecidableEq κ]

theorem foldl_update (id : ℕ) (k : κ) : ∀ (keys : List κ) (m : κ → Option ℕ),
    keys.foldl (fun m k => Function.update m k (some id)) m k = if k ∈ keys then some id else m k
  | [], m => by simp
  | x :: keys, m => by
    rw [List.foldl_cons, foldl_update id k keys]
    by_cases hk : k ∈ keys
    · simp [hk]
    · by_cases hx : k = x
      · simp [hx]
      · simp [hk, hx]

/-- The last segment below the bound whose index, as far as it was read, has the key. -/
theorem scanEligible_apply (k : κ) (segs : List (Segment κ)) : scanEligible below fails segs k
    = ((segs.filter fun seg =>
        seg.id < below ∧ k ∈ seg.scanIndex (fails seg.id)).map Segment.id).getLast? := by
  induction segs using List.reverseRecOn with
  | nil => rfl
  | append_singleton segs seg ih =>
    have hconcat : scanEligible below fails (segs ++ [seg]) k
        = if seg.id < below ∧ k ∈ seg.scanIndex (fails seg.id) then some seg.id
          else scanEligible below fails segs k := by
      rw [scanEligible, List.foldl_append, List.foldl_cons, List.foldl_nil, ← scanEligible]
      by_cases hb : below ≤ seg.id
      · rw [if_pos hb, if_neg (by omega)]
      · rw [if_neg hb, foldl_update]
        simp only [not_le.1 hb, true_and]
    rw [hconcat, List.filter_append, List.map_append]
    split_ifs with h
    · simp [h]
    · rw [ih]
      simp [h]

theorem mem_of_scanEligible {k : κ} {id : ℕ} (h : scanEligible below fails segs k = some id) :
    ∃ seg ∈ segs, seg.id = id ∧ id < below ∧ k ∈ seg.keys := by
  rw [scanEligible_apply] at h
  obtain ⟨seg, hseg, rfl⟩ := List.mem_map.1 (List.mem_of_getLast? h)
  obtain ⟨hseg, hin⟩ := List.mem_filter.1 hseg
  obtain ⟨hlt, hk⟩ := of_decide_eq_true hin
  exact ⟨seg, hseg, rfl, hlt, Segment.mem_of_mem_scanIndex hk⟩

/-- The keys found are those that the scans go through. -/
theorem scanEligible_isSome {k : κ} : (scanEligible below fails segs k).isSome ↔
    ∃ seg ∈ segs, seg.id < below ∧ k ∈ seg.scanIndex (fails seg.id) := by
  rw [scanEligible_apply, List.getLast?_isSome, ne_eq, List.map_eq_nil_iff, List.filter_eq_nil_iff]
  push Not
  simp

theorem scanEligible_congr (hfails : ∀ id, fails id = fails' id)
    (h : (segs.filter fun seg => seg.id < below) = segs'.filter fun seg => seg.id < below) :
    scanEligible below fails segs = scanEligible below fails' segs' := by
  obtain rfl : fails = fails' := funext hfails
  have hfilter : ∀ (k : κ) (l : List (Segment κ)),
      (l.filter fun seg => seg.id < below ∧ k ∈ seg.scanIndex (fails seg.id))
        = (l.filter fun seg => seg.id < below).filter fun seg =>
            k ∈ seg.scanIndex (fails seg.id) := by
    intro k l
    rw [List.filter_filter]
    exact List.filter_congr fun seg _ => by simp [Bool.and_comm]
  funext k
  rw [scanEligible_apply, scanEligible_apply, hfilter, hfilter, h]

end Dstore

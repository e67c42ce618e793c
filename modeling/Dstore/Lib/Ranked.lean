import Dstore.Lib.Byte

/-!
# Rankings and picks

A ranking is a list in which every entry stands strictly before the later ones. `takeFresh` walks a
ranking and takes the first entries whose tag it has not taken yet, up to a limit.
-/

namespace Ranked

variable {α τ : Type*}

section pick

variable [DecidableEq τ] (tag : α → τ)

/-- The first `r` entries whose tag is not in `seen` and not the tag of an entry already taken. -/
def takeFresh : ℕ → List τ → List α → List α
  | 0, _, _ => []
  | _, _, [] => []
  | r + 1, seen, x :: xs =>
    if tag x ∈ seen then takeFresh (r + 1) seen xs else x :: takeFresh r (tag x :: seen) xs

variable {x : α} {r : ℕ} {seen : List τ} {k : κ}

@[simp] theorem takeFresh_nil (r : ℕ) (seen : List τ) : takeFresh tag r seen [] = [] := by
  cases r <;> rfl

theorem takeFresh_cons (r : ℕ) (seen : List τ) (x : α) (xs : List α) :
    takeFresh tag (r + 1) seen (x :: xs)
      = if tag x ∈ seen then takeFresh tag (r + 1) seen xs
        else x :: takeFresh tag r (tag x :: seen) xs := rfl

theorem takeFresh_sublist (r : ℕ) (seen : List τ) (l : List α) :
    (takeFresh tag r seen l).Sublist l := by
  induction l generalizing r seen with
  | nil => simp
  | cons x xs ih =>
    cases r with
    | zero => exact List.nil_sublist _
    | succ r =>
      rw [takeFresh_cons]
      split_ifs
      · exact (ih _ _).cons _
      · exact (ih _ _).cons_cons _

/-- As many are taken as there are fresh tags, up to `r`. -/
theorem length_takeFresh (r : ℕ) (seen : List τ) (l : List α) :
    (takeFresh tag r seen l).length
      = min r ((l.map tag).toFinset \ seen.toFinset).card := by
  induction l generalizing r seen with
  | nil => simp
  | cons x xs ih =>
    cases r with
    | zero => simp [takeFresh]
    | succ r =>
      rw [takeFresh_cons]
      split_ifs with hx
      · have hsame : ((List.map tag (x :: xs)).toFinset \ seen.toFinset)
            = ((List.map tag xs).toFinset \ seen.toFinset) := by
          rw [List.map_cons, List.toFinset_cons]
          exact Finset.insert_sdiff_of_mem _ (List.mem_toFinset.2 hx)
        rw [ih, hsame]
      · -- the tag of `x` is new, so it leaves the set that the rest may still draw from
        have hnew : ((List.map tag (x :: xs)).toFinset \ seen.toFinset)
            = insert (tag x) ((List.map tag xs).toFinset \ (tag x :: seen).toFinset) := by
          ext t
          by_cases ht : t = tag x <;> simp [ht, hx]
        have hout : tag x ∉ (List.map tag xs).toFinset \ (tag x :: seen).toFinset := by simp
        rw [List.length_cons, ih, hnew, Finset.card_insert_of_notMem hout]
        omega

theorem not_seen_of_mem_takeFresh {l : List α} (h : x ∈ takeFresh tag r seen l) : tag x ∉ seen := by
  induction l generalizing r seen with
  | nil => simp at h
  | cons y ys ih =>
    cases r with
    | zero => simp [takeFresh] at h
    | succ r =>
      rw [takeFresh_cons] at h
      split_ifs at h with hy
      · exact ih h
      · rcases List.mem_cons.1 h with rfl | h
        · exact hy
        · exact fun hs => ih h (List.mem_cons_of_mem _ hs)

theorem nodup_takeFresh (r : ℕ) (seen : List τ) (l : List α) :
    ((takeFresh tag r seen l).map tag).Nodup := by
  induction l generalizing r seen with
  | nil => simp
  | cons x xs ih =>
    cases r with
    | zero => exact List.nodup_nil
    | succ r =>
      rw [takeFresh_cons]
      split_ifs
      · exact ih _ _
      · refine List.nodup_cons.2 ⟨fun hx => ?_, ih _ _⟩
        obtain ⟨y, hy, hyx⟩ := List.mem_map.1 hx
        exact not_seen_of_mem_takeFresh tag hy (hyx ▸ List.mem_cons_self)

theorem first_of_mem_takeFresh {lt : α → α → Prop} {l : List α} (hl : l.Pairwise lt) {x y : α}
    (hx : x ∈ takeFresh tag r seen l) (hy : y ∈ l) (ht : tag y = tag x) : y = x ∨ lt x y := by
  induction l generalizing r seen with
  | nil => simp at hy
  | cons z zs ih =>
    obtain ⟨hz, hzs⟩ := List.pairwise_cons.1 hl
    cases r with
    | zero => simp [takeFresh] at hx
    | succ r =>
      rw [takeFresh_cons] at hx
      split_ifs at hx with hseen
      · rcases List.mem_cons.1 hy with rfl | hy
        · exact absurd (ht ▸ hseen) (not_seen_of_mem_takeFresh tag hx)
        · exact ih hzs hx hy
      · rcases List.mem_cons.1 hx with rfl | hx
        · rcases List.mem_cons.1 hy with rfl | hy
          · exact .inl rfl
          · exact .inr (hz y hy)
        · rcases List.mem_cons.1 hy with rfl | hy
          · -- `x` was taken after its tag had been seen on `y`
            exact absurd (ht ▸ List.mem_cons_self) (not_seen_of_mem_takeFresh tag hx)
          · exact ih hzs hx hy

theorem takeFresh_eq_take (r : ℕ) (seen : List τ) (l : List α) (hl : (l.map tag).Nodup)
    (hs : ∀ x ∈ l, tag x ∉ seen) : takeFresh tag r seen l = l.take r := by
  induction l generalizing r seen with
  | nil => simp
  | cons x xs ih =>
    rw [List.map_cons, List.nodup_cons] at hl
    cases r with
    | zero => simp [takeFresh]
    | succ r =>
      rw [takeFresh_cons, if_neg (hs x List.mem_cons_self), List.take_succ_cons,
        ih r (tag x :: seen) hl.2]
      intro y hy hmem
      rcases List.mem_cons.1 hmem with he | hmem
      · exact hl.1 (he ▸ List.mem_map_of_mem hy)
      · exact hs y (List.mem_cons_of_mem _ hy) hmem

theorem map_takeFresh {β : Type*} (f : β → α) (r : ℕ) (seen : List τ) (l : List β) :
    (takeFresh (fun x => tag (f x)) r seen l).map f = takeFresh tag r seen (l.map f) := by
  induction l generalizing r seen with
  | nil => simp
  | cons x xs ih =>
    cases r with
    | zero => simp [takeFresh]
    | succ r =>
      rw [List.map_cons, takeFresh_cons, takeFresh_cons]
      split_ifs
      · exact ih _ _
      · rw [List.map_cons, ih]

theorem exists_mem_takeFresh {l : List α} (hroom : ((l.map tag).toFinset \ seen.toFinset).card ≤ r)
    (hx : x ∈ l) (hs : tag x ∉ seen) : ∃ y ∈ takeFresh tag r seen l, tag y = tag x := by
  by_contra hnone
  push Not at hnone
  -- the tags taken are among those of the list, and the tag of `x` is not one of them
  have hsub : ((takeFresh tag r seen l).map tag).toFinset
      ⊆ ((l.map tag).toFinset \ seen.toFinset).erase (tag x) := by
    intro t ht
    obtain ⟨y, hy, rfl⟩ := List.mem_map.1 (List.mem_toFinset.1 ht)
    have hyl := (takeFresh_sublist tag r seen l).subset hy
    simp only [Finset.mem_erase, Finset.mem_sdiff, List.mem_toFinset]
    exact ⟨hnone y hy, List.mem_map_of_mem hyl, not_seen_of_mem_takeFresh tag hy⟩
  have hmem : tag x ∈ (l.map tag).toFinset \ seen.toFinset := by
    simp only [Finset.mem_sdiff, List.mem_toFinset]
    exact ⟨List.mem_map_of_mem hx, hs⟩
  have hcard := Finset.card_le_card hsub
  rw [Finset.card_erase_of_mem hmem, List.toFinset_card_of_nodup (nodup_takeFresh tag r seen l),
    List.length_map, length_takeFresh, min_eq_right hroom] at hcard
  have hpos := Finset.card_pos.2 ⟨_, hmem⟩
  omega

section gone

variable {r : ℕ} {l : List α} {gone : α → Bool}

/-- Fewer than the limit are gone: one that is taken is not, where the tags reach the limit, or
some tag has lost no entry. -/
theorem exists_taken_not_gone (hfew : (l.filter gone).length < r)
    (hkept : r ≤ (l.map tag).toFinset.card ∨
      ∃ x ∈ l, ∀ y ∈ l, tag y = tag x → gone y = false) :
    ∃ x ∈ takeFresh tag r [] l, gone x = false := by
  by_contra hall
  push Not at hall
  simp only [ne_eq, Bool.not_eq_false] at hall
  have hsub : (takeFresh tag r [] l).Sublist (l.filter gone) := by
    have h := (takeFresh_sublist tag r [] l).filter gone
    rwa [List.filter_eq_self.2 hall] at h
  have hlen := hsub.length_le
  rw [length_takeFresh, List.toFinset_nil, Finset.sdiff_empty] at hlen
  rcases le_or_gt r (l.map tag).toFinset.card with hr | hr
  · omega
  · obtain ⟨x, hx, hsafe⟩ := hkept.resolve_left (not_le.2 hr)
    obtain ⟨y, hy, hyx⟩ := exists_mem_takeFresh tag (by simpa using hr.le) hx
      (List.not_mem_nil)
    have := hsafe y ((takeFresh_sublist tag r [] l).subset hy) hyx
    rw [hall y hy] at this
    cases this

variable (gone) in
/-- Where every tag has lost an entry, and the entries lost rank before the others, all that are
taken are gone. -/
theorem gone_of_taken {κ : Type*} [Preorder κ] {key : α → κ} (hl : l.Pairwise (key · < key ·))
    (hlost : ∀ x ∈ l, ∃ y ∈ l, tag y = tag x ∧ gone y = true)
    (hfirst : ∀ x ∈ l, ∀ y ∈ l, gone x = false → gone y = true → key y < key x)
    (hx : x ∈ takeFresh tag r [] l) : gone x = true := by
  have hxl := (takeFresh_sublist tag r [] l).subset hx
  obtain ⟨y, hy, hyx, hgone⟩ := hlost x hxl
  rcases first_of_mem_takeFresh tag hl hx hy hyx with rfl | hlt
  · exact hgone
  · by_contra hstays
    exact lt_asymm hlt (hfirst x hxl y hy (by simpa using hstays) hgone)

end gone

end pick

section order

variable {κ : Type*} [LinearOrder κ] (key : α → κ)

theorem eq_of_perm {l m : List α} (hl : l.Pairwise (key · < key ·)) (hm : m.Pairwise (key · < key ·))
    (h : l.Perm m) : l = m :=
  h.eq_of_pairwise (fun _ _ _ _ hab hba => absurd hba hab.not_gt) hl hm

theorem orderedInsert_congr {r s : α → α → Prop} [DecidableRel r] [DecidableRel s] {l : List α}
    (h : ∀ y ∈ l, r x y ↔ s x y) : l.orderedInsert r x = l.orderedInsert s x := by
  induction l with
  | nil => rfl
  | cons y ys ih =>
    have hy := h y List.mem_cons_self
    have ih' := ih fun z hz => h z (List.mem_cons_of_mem _ hz)
    by_cases hr : r x y
    · rw [List.orderedInsert_cons, List.orderedInsert_cons, if_pos hr, if_pos (hy.1 hr)]
    · rw [List.orderedInsert_cons, List.orderedInsert_cons, if_neg hr, if_neg (mt hy.2 hr), ih']

theorem insertionSort_congr {r s : α → α → Prop} [DecidableRel r] [DecidableRel s] {l : List α}
    (h : ∀ x ∈ l, ∀ y ∈ l, r x y ↔ s x y) : l.insertionSort r = l.insertionSort s := by
  induction l with
  | nil => rfl
  | cons x xs ih =>
    have ih' := ih fun y hy z hz => h y (List.mem_cons_of_mem _ hy) z (List.mem_cons_of_mem _ hz)
    rw [List.insertionSort_cons, List.insertionSort_cons, ih']
    refine orderedInsert_congr fun y hy => h x List.mem_cons_self y (List.mem_cons_of_mem _ ?_)
    exact (List.mem_insertionSort s).1 hy

/-- Sorting by a comparison that agrees with the keys on the entries of a list gives a ranking, when
no two of the entries have one key. -/
theorem pairwise_insertionSort {r : α → α → Prop} [DecidableRel r] {l : List α}
    (h : ∀ x ∈ l, ∀ y ∈ l, r x y ↔ key x ≤ key y) (hl : l.Pairwise (key · ≠ key ·)) :
    (l.insertionSort r).Pairwise (key · < key ·) := by
  have hle : (l.insertionSort (key · ≤ key ·)).Pairwise (key · ≤ key ·) := by
    have ht : IsTrans α (key · ≤ key ·) := ⟨fun _ _ _ => le_trans⟩
    have htot : Std.Total (fun x y : α => key x ≤ key y) := ⟨fun _ _ => le_total _ _⟩
    exact List.pairwise_insertionSort _ _
  have hne : (l.insertionSort (key · ≤ key ·)).Pairwise (key · ≠ key ·) :=
    ((List.perm_insertionSort _ l).pairwise_iff fun h => Ne.symm h).2 hl
  rw [insertionSort_congr h]
  exact (hle.and hne).imp fun ⟨h₁, h₂⟩ => lt_of_le_of_ne h₁ h₂

theorem eq_filter_append {l : List α} (hl : l.Pairwise (key · < key ·)) (hk : ∀ x ∈ l, key x ≠ k) :
    l = l.filter (fun x => key x < k) ++ l.filter (fun x => k < key x) := by
  induction l with
  | nil => rfl
  | cons x xs ih =>
    obtain ⟨hx, hxs⟩ := List.pairwise_cons.1 hl
    have ih' := ih hxs fun y hy => hk y (List.mem_cons_of_mem _ hy)
    rcases lt_or_gt_of_ne (hk x List.mem_cons_self) with h | h
    · rw [List.filter_cons_of_pos (by simpa using h),
        List.filter_cons_of_neg (by simpa using h.le), List.cons_append, ← ih']
    · -- all of the list lies behind the key
      have hall : ∀ y ∈ x :: xs, k < key y := by
        intro y hy
        rcases List.mem_cons.1 hy with rfl | hy
        · exact h
        · exact h.trans (hx y hy)
      rw [List.filter_eq_nil_iff.2 (fun y hy => by simpa using (hall y hy).le),
        List.filter_eq_self.2 (fun y hy => by simpa using hall y hy), List.nil_append]

theorem pairwise_insert {l : List α} (hl : l.Pairwise (key · < key ·)) (n : α) :
    (l.filter (fun x => key x < key n) ++ n :: l.filter (fun x => key n < key x)).Pairwise
      (key · < key ·) := by
  refine List.pairwise_append.2 ⟨hl.filter _, List.pairwise_cons.2 ⟨?_, hl.filter _⟩, ?_⟩
  · intro y hy
    simpa using (List.mem_filter.1 hy).2
  · intro x hx y hy
    have hxn : key x < key n := by simpa using (List.mem_filter.1 hx).2
    rcases List.mem_cons.1 hy with rfl | hy
    · exact hxn
    · exact hxn.trans (by simpa using (List.mem_filter.1 hy).2)

end order

section promotion

variable [DecidableEq α]

/-- What a promotion of `n` may do to the head of a ranking, `more` being the head with `n` higher
up: but for `n` it has nothing that `less` lacks, and `less` has at most one entry that it lacks. -/
structure Minimal (n : α) (more less : List α) : Prop where
  kept : (more.filter (· ≠ n)).Sublist less
  one : (less.filter (· ∉ more)).length ≤ 1
  gained : (∃ x ∈ less, x ∉ more) → n ∈ more ∧ n ∉ less
  same : n ∉ more → more = less

theorem Minimal.refl (n : α) (l : List α) : Minimal n l l where
  kept := List.filter_sublist
  one := by
    rw [List.filter_eq_nil_iff.2 fun x hx => by simp [hx]]
    simp
  gained := fun ⟨_, hx, hx'⟩ => absurd hx hx'
  same := fun _ => rfl

/-- An entry into a ranking moves one element at most out of the first `r`. -/
theorem Minimal.enter {n : α} {A B : List α} (hA : n ∉ A) (hB : n ∉ B) (r : ℕ) :
    Minimal n ((A ++ n :: B).take r) ((A ++ B).take r) := by
  rcases Nat.lt_or_ge A.length r with h | h
  · obtain ⟨k, rfl⟩ : ∃ k, r = A.length + (k + 1) := ⟨r - A.length - 1, by omega⟩
    have hBk : ∀ j, n ∉ B.take j := fun j hn => hB (List.mem_of_mem_take hn)
    have hself : ∀ l : List α, n ∉ l → l.filter (· ≠ n) = l := by
      intro l hl
      refine List.filter_eq_self.2 fun x hx => ?_
      simpa using fun he : x = n => hl (he ▸ hx)
    rw [List.take_length_add_append, List.take_length_add_append, List.take_succ_cons]
    refine ⟨?_, ?_, fun _ => ⟨by simp, ?_⟩, fun hn => absurd (by simp) hn⟩
    · rw [List.filter_append, List.filter_cons_of_neg (by simp), hself A hA, hself _ (hBk k)]
      exact (List.Sublist.refl A).append (List.take_sublist_take_left (by omega))
    · -- both lists have `A` and the first `k` of `B`
      have hlast : (A ++ B.take (k + 1)).filter (· ∉ A ++ n :: B.take k)
          = B[k]?.toList.filter (· ∉ A ++ n :: B.take k) := by
        rw [List.take_add_one, List.filter_append, List.filter_append,
          List.filter_eq_nil_iff.2 (fun x hx => by simp [hx]), List.nil_append,
          List.filter_eq_nil_iff.2 (fun x hx => by simp [hx]), List.nil_append]
      rw [hlast]
      refine (List.length_filter_le _ _).trans ?_
      cases B[k]? <;> simp
    · simp [hA, hBk]
  · rw [List.take_append_of_le_length h, List.take_append_of_le_length h]
    exact Minimal.refl n _

/-- So does a move within it. -/
theorem Minimal.move {n : α} {A B C : List α} (hA : n ∉ A) (hB : n ∉ B) (hC : n ∉ C) (r : ℕ) :
    Minimal n ((A ++ n :: (B ++ C)).take r) ((A ++ (B ++ n :: C)).take r) := by
  rcases Nat.lt_or_ge (A.length + B.length) r with h | h
  · -- both heads reach past `n`: they have the same entries
    obtain ⟨k, rfl⟩ : ∃ k, r = A.length + (B.length + (k + 1)) :=
      ⟨r - A.length - B.length - 1, by omega⟩
    have hmore : (A ++ n :: (B ++ C)).take (A.length + (B.length + (k + 1)))
        = A ++ n :: (B ++ C.take k) := by
      rw [List.take_length_add_append, show B.length + (k + 1) = (B.length + k) + 1 by omega,
        List.take_succ_cons, List.take_length_add_append]
    have hless : (A ++ (B ++ n :: C)).take (A.length + (B.length + (k + 1)))
        = A ++ (B ++ n :: C.take k) := by
      rw [List.take_length_add_append, List.take_length_add_append, List.take_succ_cons]
    rw [hmore, hless]
    have hsub : ∀ x ∈ A ++ (B ++ n :: C.take k), x ∈ A ++ n :: (B ++ C.take k) := by
      intro x
      simp only [List.mem_append, List.mem_cons]
      tauto
    refine ⟨?_, ?_, ?_, fun hn => absurd (by simp) hn⟩
    · have hs : ∀ l : List α, (l.filter (· ≠ n)).Sublist l := fun l => List.filter_sublist
      rw [List.filter_append, List.filter_cons_of_neg (by simp), List.filter_append]
      exact (hs A).append ((hs B).append ((hs _).cons n))
    · rw [List.filter_eq_nil_iff.2 fun x hx => by simpa only [decide_not, Bool.not_eq_true',
        decide_eq_false_iff_not, not_not] using hsub x hx]
      simp
    · rintro ⟨x, hx, hx'⟩
      exact absurd (hsub x hx) hx'
  · have hless : (A ++ (B ++ n :: C)).take r = (A ++ (B ++ C)).take r := by
      have hl : r ≤ (A ++ B).length := by simpa using h
      rw [← List.append_assoc, ← List.append_assoc, List.take_append_of_le_length hl,
        List.take_append_of_le_length hl]
    rw [hless]
    exact Minimal.enter hA (by simp [hB, hC]) r

variable {β κ : Type*} [DecidableEq β] [LinearOrder κ] {key : α → κ} {f : α → β} {n : β} {l : List α}

omit [DecidableEq α] in
theorem Minimal.enter_key (hl : l.Pairwise (key · < key ·)) (hk : ∀ x ∈ l, key x ≠ k)
    (hn : ∀ x ∈ l, f x ≠ n) (r : ℕ) :
    Minimal n (((l.filter (fun x => key x < k)).map f
        ++ n :: (l.filter (fun x => k < key x)).map f).take r) ((l.map f).take r) := by
  have hout : ∀ p : α → Bool, n ∉ (l.filter p).map f := by
    intro p hmem
    obtain ⟨x, hx, hxn⟩ := List.mem_map.1 hmem
    exact hn x (List.mem_filter.1 hx).1 hxn
  have hmap := congrArg (List.map f) (eq_filter_append key hl hk)
  rw [List.map_append] at hmap
  rw [hmap]
  exact Minimal.enter (hout _) (hout _) r

omit [DecidableEq α] in
/-- The key of `n` falls from `k` to `k'`, so that `n` moves up. -/
theorem Minimal.move_key (hl : l.Pairwise (key · < key ·)) {k k' : κ} (hkk : k' ≤ k)
    (hk : ∀ x ∈ l, key x ≠ k) (hk' : ∀ x ∈ l, key x ≠ k') (hn : ∀ x ∈ l, f x ≠ n) (r : ℕ) :
    Minimal n (((l.filter (fun x => key x < k')).map f
        ++ n :: (l.filter (fun x => k' < key x)).map f).take r)
      (((l.filter (fun x => key x < k)).map f
        ++ n :: (l.filter (fun x => k < key x)).map f).take r) := by
  -- the entries between the two keys are those that `n` passes
  have hlow : l.filter (fun x => key x < k)
      = l.filter (fun x => key x < k') ++ l.filter (fun x => k' < key x ∧ key x < k) := by
    have h := eq_filter_append key (hl.filter fun x => decide (key x < k))
      fun x hx => hk' x (List.mem_filter.1 hx).1
    rw [List.filter_filter, List.filter_filter] at h
    rw [h]
    congr 1
    · refine List.filter_congr fun x _ => ?_
      by_cases hx : key x < k'
      · simp [hx, hx.trans_le hkk]
      · simp [hx]
    · exact List.filter_congr fun x _ => by simp
  have hhigh : l.filter (fun x => k' < key x)
      = l.filter (fun x => k' < key x ∧ key x < k) ++ l.filter (fun x => k < key x) := by
    have h := eq_filter_append key (hl.filter fun x => decide (k' < key x))
      fun x hx => hk x (List.mem_filter.1 hx).1
    rw [List.filter_filter, List.filter_filter] at h
    rw [h]
    congr 1
    · exact List.filter_congr fun x _ => by simp [Bool.and_comm]
    · refine List.filter_congr fun x _ => ?_
      by_cases hx : k < key x
      · simp [hx, hkk.trans_lt hx]
      · simp [hx]
  have hout : ∀ p : α → Bool, n ∉ (l.filter p).map f := by
    intro p hmem
    obtain ⟨x, hx, hxn⟩ := List.mem_map.1 hmem
    exact hn x (List.mem_filter.1 hx).1 hxn
  rw [hlow, hhigh, List.map_append, List.map_append, List.append_assoc]
  exact Minimal.move (hout _) (hout _) (hout _) r

end promotion

end Ranked

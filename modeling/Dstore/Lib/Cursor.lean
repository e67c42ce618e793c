import Dstore.Lib.Byte

/-!
# Following a cursor

A sorted list is read page by page. A loop that stops at a page without a cursor or without items
reads the whole list exactly if no page without items ends in front of one. A loop that stops only
at a page without a cursor does where each page has the keys of its range and its cursor is one of
them.
-/

namespace Cursor

variable {α κ : Type*} [LinearOrder κ] {fetch : ℕ → Option κ → Option (List α × Option κ)}
  {name : α → κ} {items : List α} {ok : κ → Prop}

/-- The loop over the pages, from the `i`-th on; `fetch` is given the page's number, and may
fail. -/
def follow (fetch : ℕ → Option κ → Option (List α × Option κ)) :
    ℕ → ℕ → Option κ → Option (List α)
  | 0, _, _ => none
  | fuel + 1, i, after =>
    match fetch i after with
    | none => none
    | some (page, none) => some page
    | some (page, some next) =>
      if page.isEmpty then some page
      else (follow fetch fuel (i + 1) (some next)).map (page ++ ·)

/-- The items behind a cursor; without one, all of them. -/
def behind (name : α → κ) (items : List α) (after : Option κ) : List α :=
  items.filter fun x => ∀ k ∈ after, k < name x

/-- The items behind one cursor and up to another. -/
def between (name : α → κ) (items : List α) (after next : Option κ) : List α :=
  items.filter fun x => (∀ k ∈ after, k < name x) ∧ ∀ k ∈ next, name x ≤ k

/-- The page asked for behind `after` ends at `ends i after`: it is cut out of the list, and cursors
advance and stay within `ok`. -/
def Cuts (fetch : ℕ → Option κ → Option (List α × Option κ)) (ends : ℕ → Option κ → Option κ)
    (name : α → κ) (items : List α) (ok : κ → Prop) : Prop :=
  ∀ i after, (∀ k ∈ after, ok k) →
    fetch i after = some (between name items after (ends i after), ends i after) ∧
      ∀ k ∈ ends i after, ok k ∧ ∀ j ∈ after, j < k

/-- Where pages that end so begin, from the `i`-th behind `after` on. -/
inductive Position (ends : ℕ → Option κ → Option κ) (i : ℕ) (after : Option κ) :
    ℕ → Option κ → Prop
  | here : Position ends i after i after
  | next {j : ℕ} {b : Option κ} {k : κ} :
      Position ends i after j b → ends j b = some k → Position ends i after (j + 1) (some k)

/-- Wherever a page ends with items behind its end, there are items in it. -/
def Gapless (ends : ℕ → Option κ → Option κ) (name : α → κ) (items : List α) (i : ℕ)
    (after : Option κ) : Prop :=
  ∀ j b k, Position ends i after j b → ends j b = some k → (∃ x ∈ items, k < name x) →
    ∃ x ∈ items, (∀ l ∈ b, l < name x) ∧ name x ≤ k

/-- The name of the item that fills a page, where fewer than `n` items fill one. -/
def fillsAt (full : List α → Bool) (name : α → κ) (l : List α) (n : ℕ) : Option κ :=
  ((List.range n).find? fun m => full (l.take m)).bind fun m => (l.take m).getLast?.map name

omit [LinearOrder κ] in
theorem fillsAt_eq_some {full : List α → Bool} {l : List α} {n m : ℕ} {x : α} (hm : m < n)
    (hfull : full (l.take m) = true) (hbelow : ∀ j < m, full (l.take j) = false)
    (hx : (l.take m).getLast? = some x) : fillsAt full name l n = some (name x) := by
  have hfind : (List.range n).find? (fun j => full (l.take j)) = some m := by
    rw [List.find?_range_eq_some]
    exact ⟨hfull, List.mem_range.2 hm, fun j hj => by simp [hbelow j hj]⟩
  rw [fillsAt, hfind, Option.bind_some, hx, Option.map_some]

omit [LinearOrder κ] in
theorem fillsAt_eq_none {full : List α → Bool} {l : List α} {n : ℕ}
    (h : ∀ j < n, full (l.take j) = false) : fillsAt full name l n = none := by
  have hfind : (List.range n).find? (fun j => full (l.take j)) = none := by
    rw [List.find?_range_eq_none]
    exact fun j hj => by simp [h j hj]
  rw [fillsAt, hfind, Option.bind_none]

theorem mem_between {after next : Option κ} {x : α} : x ∈ between name items after next ↔
    x ∈ items ∧ (∀ k ∈ after, k < name x) ∧ ∀ k ∈ next, name x ≤ k := by
  simp [between]

theorem between_none (after : Option κ) :
    between name items after none = behind name items after := by
  simp [between, behind]

/-- A page and what follows it make up what followed the cursor. -/
theorem between_append_behind (hs : items.Pairwise fun x y => name x < name y) {after : Option κ}
    {k : κ} (hk : ∀ j ∈ after, j < k) :
    between name items after (some k) ++ behind name items (some k) =
      behind name items after := by
  unfold between behind
  induction items with
  | nil => rfl
  | cons x items ih =>
    obtain ⟨hx, hs⟩ := List.pairwise_cons.1 hs
    specialize ih hs
    by_cases hle : name x ≤ k
    · have hnot : ¬ k < name x := hle.not_gt
      by_cases ha : ∀ j ∈ after, j < name x
      · rw [List.filter_cons_of_pos (by simpa [hle] using ha),
          List.filter_cons_of_neg (by simp [hnot]), List.filter_cons_of_pos (by simpa using ha),
          List.cons_append, ih]
      · rw [List.filter_cons_of_neg (by simpa [hle] using ha),
          List.filter_cons_of_neg (by simp [hnot]), List.filter_cons_of_neg (by simpa using ha), ih]
    · -- everything from here on is behind the next cursor
      have hlt : k < name x := not_le.1 hle
      have hafter : ∀ y, k < name y → ∀ j ∈ after, j < name y :=
        fun y hy j hj => (hk j hj).trans hy
      have hrest : ∀ y ∈ x :: items, k < name y := by
        intro y hy
        rcases List.mem_cons.1 hy with rfl | hy
        · exact hlt
        · exact hlt.trans (hx y hy)
      have hnil : (x :: items).filter
          (fun y => (∀ j ∈ after, j < name y) ∧ ∀ j ∈ some k, name y ≤ j) = [] := by
        rw [List.filter_eq_nil_iff]
        intro y hy
        simp [(hrest y hy).not_ge]
      rw [hnil, List.nil_append]
      refine List.filter_congr fun y hy => ?_
      simpa [hrest y hy] using hafter y (hrest y hy)

section position

variable {ends : ℕ → Option κ → Option κ} {i j : ℕ} {after b : Option κ} {k m : κ}

omit [LinearOrder κ] in
theorem Position.prepend (hk : ends i after = some k) (h : Position ends (i + 1) (some k) j b) :
    Position ends i after j b := by
  induction h with
  | here => exact .next .here hk
  | next _ hm ih => exact .next ih hm

omit [LinearOrder κ] in
theorem Position.first (h : Position ends i after j b) :
    j = i ∧ b = after ∨ ∃ k, ends i after = some k ∧ Position ends (i + 1) (some k) j b := by
  induction h with
  | here => exact .inl ⟨rfl, rfl⟩
  | @next j b m _ hm ih =>
    rcases ih with ⟨rfl, rfl⟩ | ⟨k, hk, hp⟩
    · exact .inr ⟨m, hm, .here⟩
    · exact .inr ⟨k, hk, .next hp hm⟩

theorem Cuts.position (h : Cuts fetch ends name items ok) (hok : ∀ k ∈ after, ok k)
    (hp : Position ends i after j b) : (∀ k ∈ b, ok k) ∧ ∀ l ∈ after, ∀ k ∈ ends j b, l < k := by
  induction hp with
  | here => exact ⟨hok, fun l hl k hk => ((h i after hok).2 k hk).2 l hl⟩
  | @next j b m _ hm ih =>
    have hok' : ∀ k ∈ some m, ok k := by simpa using ((h j b ih.1).2 m hm).1
    refine ⟨hok', fun l hl k hk => ?_⟩
    exact (ih.2 l hl m hm).trans (((h (j + 1) (some m) hok').2 k hk).2 m rfl)

theorem gapless_of_end (hk : ends i after = none) : Gapless ends name items i after := by
  intro j b m hp hm
  rcases hp.first with ⟨rfl, rfl⟩ | ⟨k, hk', -⟩
  · simp [hk] at hm
  · simp [hk] at hk'

/-- Pages without gaps, one page further. -/
theorem gapless_iff (hk : ends i after = some k) : Gapless ends name items i after ↔
      ((∃ x ∈ items, k < name x) → ∃ x ∈ items, (∀ l ∈ after, l < name x) ∧ name x ≤ k) ∧
        Gapless ends name items (i + 1) (some k) := by
  constructor
  · exact fun hg => ⟨hg i after k .here hk, fun j b m hp => hg j b m (hp.prepend hk)⟩
  · rintro ⟨h1, h2⟩ j b m hp hm
    rcases hp.first with ⟨rfl, rfl⟩ | ⟨k', hk', hp⟩
    · cases hk.symm.trans hm
      exact h1
    · cases hk.symm.trans hk'
      exact h2 j b m hp hm

theorem gapless_of_behind_nil (h : Cuts fetch ends name items ok) (hok : ∀ k ∈ after, ok k)
    (hnil : behind name items after = []) : Gapless ends name items i after := by
  rintro j b m hp hm ⟨x, hx, hlt⟩
  have hmem : x ∈ behind name items after := by
    simp only [behind, List.mem_filter, decide_eq_true_eq]
    exact ⟨hx, fun l hl => ((h.position hok hp).2 l hl m hm).trans hlt⟩
  simp [hnil] at hmem

end position

/-- The loop that stops at a page without items reads the whole list exactly if no page without
items ends in front of one. -/
theorem follow_eq_iff {ends : ℕ → Option κ → Option κ}
    (hs : items.Pairwise fun x y => name x < name y) (hcuts : Cuts fetch ends name items ok) :
    ∀ {fuel i : ℕ} {after : Option κ}, (∀ k ∈ after, ok k) →
      (behind name items after).length < fuel →
      (follow fetch fuel i after = some (behind name items after) ↔
        Gapless ends name items i after)
  | 0, _, _, _, h => absurd h (Nat.not_lt_zero _)
  | fuel + 1, i, after, hok, h => by
    obtain ⟨hf, hends⟩ := hcuts i after hok
    rcases hk : ends i after with _ | k
    · rw [hk, between_none] at hf
      rw [follow, hf]
      exact iff_of_true rfl (gapless_of_end hk)
    · rw [hk] at hf
      have hsplit := between_append_behind hs (hends k hk).2
      have hok' : ∀ j ∈ some k, ok j := by simpa using (hends k hk).1
      have hbetween : between name items after (some k) = [] ↔
          ¬ ∃ x ∈ items, (∀ l ∈ after, l < name x) ∧ name x ≤ k := by
        simp [between, List.filter_eq_nil_iff]
      have hbehind : behind name items (some k) = [] ↔ ¬ ∃ x ∈ items, k < name x := by
        simp [behind, List.filter_eq_nil_iff]
      rw [follow, hf, gapless_iff hk]
      by_cases hempty : between name items after (some k) = []
      · rw [hempty, List.nil_append] at hsplit
        simp only [hempty, List.isEmpty_nil, if_true, Option.some.injEq, ← hsplit]
        rw [eq_comm, hbehind]
        constructor
        · exact fun hn => ⟨fun hx => absurd hx hn, gapless_of_behind_nil hcuts hok' (hbehind.2 hn)⟩
        · exact fun hg hx => hbetween.1 hempty (hg.1 hx)
      · have hlen : (behind name items (some k)).length < fuel := by
          have hpos := List.length_pos_of_ne_nil hempty
          rw [← hsplit, List.length_append] at h
          omega
        have ih := follow_eq_iff hs hcuts (i := i + 1) hok' hlen
        rw [← ih]
        have hne : (between name items after (some k)).isEmpty = false := by simpa using hempty
        have hhere : (∃ x ∈ items, k < name x) →
            ∃ x ∈ items, (∀ l ∈ after, l < name x) ∧ name x ≤ k :=
          fun _ => not_not.1 fun hn => hempty (hbetween.2 hn)
        simp only [hne, Bool.false_eq_true, if_false, ← hsplit, Option.map_eq_some_iff,
          List.append_cancel_left_eq, exists_eq_right]
        exact (and_iff_right hhere).symm

/-- The loop over the pages that goes on until there is no cursor: the pages, with their
cursors. -/
def pages (fetch : ℕ → Option κ → Option (List α × Option κ)) :
    ℕ → ℕ → Option κ → Option (List (List α × Option κ))
  | 0, _, _ => none
  | fuel + 1, i, after =>
    match fetch i after with
    | none => none
    | some (page, none) => some [(page, none)]
    | some (page, some next) =>
      (pages fetch fuel (i + 1) (some next)).map ((page, some next) :: ·)

/-- A page in order, with the keys behind `after` up to the cursor it returns, which is one of
them. -/
structure Exact (name : α → κ) (keys : Finset κ) (after : Option κ) (p : List α × Option κ) :
    Prop where
  sorted : p.1.Pairwise fun x y => name x < name y
  mem : ∀ k, (∃ x ∈ p.1, name x = k) ↔ k ∈ keys ∧ (∀ j ∈ after, j < k) ∧ ∀ j ∈ p.2, k ≤ j
  next : ∀ k ∈ p.2, k ∈ keys ∧ ∀ j ∈ after, j < k

omit [LinearOrder κ] in
theorem pages_mono : ∀ {fuel fuel' i : ℕ} {after : Option κ} {ps : List (List α × Option κ)},
    fuel ≤ fuel' → pages fetch fuel i after = some ps → pages fetch fuel' i after = some ps
  | 0, _, _, _, _, _, h => by cases h
  | fuel + 1, fuel' + 1, i, after, ps, hle, h => by
    rw [pages] at h ⊢
    split at h
    · cases h
    · exact h
    · obtain ⟨qs, hqs, rfl⟩ := Option.map_eq_some_iff.1 h
      rw [pages_mono (Nat.le_of_succ_le_succ hle) hqs]
      rfl

/-- The cursor that the `j`-th of the pages was asked with. -/
def asked (after : Option κ) (ps : List (List α × Option κ)) : ℕ → Option κ
  | 0 => after
  | j + 1 => ps[j]?.bind Prod.snd

/-- What the loop reads from its `i`-th page on, where that page has the keys of `keys i`. -/
structure Reads (fetch : ℕ → Option κ → Option (List α × Option κ)) (name : α → κ)
    (keys : ℕ → Finset κ) (i : ℕ) (after : Option κ) (ps : List (List α × Option κ)) : Prop where
  sorted : (ps.flatMap Prod.fst).Pairwise fun x y => name x < name y
  cursors : (after.toList ++ ps.filterMap Prod.snd).Pairwise (· < ·)
  page : ∀ j p, ps[j]? = some p → fetch (i + j) (asked after ps j) = some p ∧
    Exact name (keys (i + j)) (asked after ps j) p
  sound : ∀ x ∈ ps.flatMap Prod.fst, (∃ j, name x ∈ keys j) ∧ ∀ j ∈ after, j < name x
  complete : ∀ k, (∀ j, k ∈ keys j) → (∀ j ∈ after, j < k) → ∃ x ∈ ps.flatMap Prod.fst, name x = k

variable {keys : ℕ → Finset κ} {i : ℕ} {after : Option κ} {page : List α} {k : κ}
  {ps : List (List α × Option κ)}

/-- A page without a cursor ends the reading. -/
theorem Exact.last (hp : Exact name (keys i) after (page, none))
    (hf : fetch i after = some (page, none)) : Reads fetch name keys i after [(page, none)] where
  sorted := by simpa using hp.sorted
  cursors := by cases after <;> simp
  page j p hj := by
    cases j with
    | zero =>
      cases hj
      exact ⟨hf, hp⟩
    | succ j => simp at hj
  sound x hx := by
    obtain ⟨h1, h2, -⟩ := (hp.mem (name x)).1 ⟨x, by simpa using hx, rfl⟩
    exact ⟨⟨i, h1⟩, h2⟩
  complete k hk ha := by simpa using (hp.mem k).2 ⟨hk i, ha, by simp⟩

/-- A page with a cursor is read on from there. -/
theorem Exact.more (hp : Exact name (keys i) after (page, some k))
    (hf : fetch i after = some (page, some k)) (h : Reads fetch name keys (i + 1) (some k) ps) :
    Reads fetch name keys i after ((page, some k) :: ps) where
  sorted := by
    rw [List.flatMap_cons, List.pairwise_append]
    refine ⟨hp.sorted, h.sorted, fun x hx y hy => ?_⟩
    have hxk := ((hp.mem (name x)).1 ⟨x, hx, rfl⟩).2.2 k rfl
    exact hxk.trans_lt ((h.sound y hy).2 k rfl)
  cursors := by
    have hk : (k :: ps.filterMap Prod.snd).Pairwise (· < ·) := by simpa using h.cursors
    cases after with
    | none => simpa using hk
    | some j =>
      have hjk := (hp.next k rfl).2 j rfl
      show (j :: k :: ps.filterMap Prod.snd).Pairwise (· < ·)
      refine List.pairwise_cons.2 ⟨fun x hx => ?_, hk⟩
      rcases List.mem_cons.1 hx with rfl | hx
      · exact hjk
      · exact hjk.trans ((List.pairwise_cons.1 hk).1 x hx)
  page j p hj := by
    cases j with
    | zero =>
      cases hj
      exact ⟨hf, hp⟩
    | succ j =>
      have hasked : asked after ((page, some k) :: ps) (j + 1) = asked (some k) ps j := by
        cases j <;> rfl
      rw [hasked, show i + (j + 1) = i + 1 + j by omega]
      exact h.page j p (by simpa using hj)
  sound x hx := by
    rcases List.mem_append.1 (List.flatMap_cons ▸ hx) with hx | hx
    · obtain ⟨h1, h2, -⟩ := (hp.mem (name x)).1 ⟨x, hx, rfl⟩
      exact ⟨⟨i, h1⟩, h2⟩
    · obtain ⟨h1, h2⟩ := h.sound x hx
      exact ⟨h1, fun j hj => ((hp.next k rfl).2 j hj).trans (h2 k rfl)⟩
  complete x hx ha := by
    rw [List.flatMap_cons]
    rcases le_or_gt x k with hle | hgt
    · obtain ⟨y, hy, rfl⟩ := (hp.mem x).2 ⟨hx i, ha, by simpa using hle⟩
      exact ⟨y, List.mem_append_left _ hy, rfl⟩
    · obtain ⟨y, hy, rfl⟩ := h.complete x hx (by simpa using hgt)
      exact ⟨y, List.mem_append_right _ hy, rfl⟩

/-- With more fuel than there are keys left, the loop ends. The pages may each have keys of their
own, out of finitely many. -/
theorem pages_exact {all : Finset κ} (hsub : ∀ i, keys i ⊆ all)
    (hfetch : ∀ i after, (∀ k ∈ after, k ∈ all) →
      ∃ p, fetch i after = some p ∧ Exact name (keys i) after p) :
    ∀ {fuel i : ℕ} {after : Option κ}, (∀ k ∈ after, k ∈ all) →
      (all.filter fun k => ∀ j ∈ after, j < k).card < fuel →
      ∃ ps, pages fetch fuel i after = some ps ∧ Reads fetch name keys i after ps
  | 0, _, _, _, h => absurd h (Nat.not_lt_zero _)
  | fuel + 1, i, after, hafter, h => by
    obtain ⟨⟨page, next⟩, hf, hp⟩ := hfetch i after hafter
    rw [pages, hf]
    rcases next with _ | k
    · exact ⟨_, rfl, hp.last hf⟩
    · obtain ⟨hk, hlt⟩ := hp.next k rfl
      -- the cursor is itself a key behind `after`, and not behind itself
      have hcard : (all.filter fun x => ∀ j ∈ some k, j < x).card < fuel := by
        refine (Finset.card_lt_card ?_).trans_le (Nat.le_of_lt_succ h)
        refine Finset.ssubset_iff_of_subset ?_ |>.2 ⟨k, by simpa [hsub i hk] using hlt, by simp⟩
        intro x hx
        simp only [Finset.mem_filter, Option.mem_some_iff, forall_eq'] at hx ⊢
        exact ⟨hx.1, fun j hj => (hlt j hj).trans hx.2⟩
      have hafter' : ∀ x ∈ some k, x ∈ all := by simpa using hsub i hk
      obtain ⟨ps, hps, hreads⟩ := pages_exact hsub hfetch (i := i + 1) hafter' hcard
      exact ⟨(page, some k) :: ps, by simp [hps], hp.more hf hreads⟩

theorem Reads.mem_iff {all : Finset κ} (h : Reads fetch name (fun _ => all) i none ps) {k : κ} :
    (∃ x ∈ ps.flatMap Prod.fst, name x = k) ↔ k ∈ all := by
  refine ⟨?_, fun hk => h.complete k (fun _ => hk) (by simp)⟩
  rintro ⟨x, hx, rfl⟩
  obtain ⟨⟨-, hk⟩, -⟩ := h.sound x hx
  exact hk

end Cursor

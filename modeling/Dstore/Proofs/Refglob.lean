import Dstore.Refglob

/-!
# What a glob means

`Tokens` is the grammar of patterns and `Token.Matches` what each token matches. The loop writes,
for the tokens of the pattern, their texts one behind the other (`loop_of_tokens`, and
`tokens_of_loop` for the converse).
-/

namespace Dstore.Refglob

open Re2 (feed feeds feeds_append feeds_cons feeds_nil inRanges Class State)

/-- The parts of a pattern. -/
inductive Token
  | lit (c : Char)
  | any
  | star
  | cls (negate : Bool) (items : List (Char × Char))
  | segs
  | rest
  deriving DecidableEq, Repr

/-- How a class spells a character. -/
inductive Spelled : List Char → Char → Prop
  | plain {c : Char} (h : c ∉ ['\\', ']']) : Spelled [c] c
  | escaped {c : Char} : Spelled ['\\', c] c

/-- The text between the brackets of a class, and what it lists: characters and ranges. A hyphen
behind a character makes a range unless it is the last thing in the class. -/
inductive Items : List Char → List (Char × Char) → Prop
  | nil : Items [] []
  | single {t u : List Char} {c : Char} {items : List (Char × Char)} (ht : Spelled t c)
      (hu : ∀ x xs, u ≠ '-' :: x :: xs) (h : Items u items) : Items (t ++ u) ((c, c) :: items)
  | range {t t' u : List Char} {lo hi : Char} {items : List (Char × Char)} (ht : Spelled t lo)
      (ht' : Spelled t' hi) (hle : lo ≤ hi) (h : Items u items) :
      Items (t ++ '-' :: (t' ++ u)) ((lo, hi) :: items)

/-- The second star fills its segment. -/
def FillsSegment (rs : List Char) : Prop := rs = ['*'] ∨ ∃ rest, rs = '*' :: '/' :: rest

/-- The tokens of a pattern. The flag says whether it goes on at the start of a segment. -/
inductive Tokens : Bool → List Char → List Token → Prop
  | nil {s : Bool} : Tokens s [] []
  | escaped {s : Bool} {c : Char} {rs : List Char} {ts : List Token}
      (h : Tokens (c = '/') rs ts) : Tokens s ('\\' :: c :: rs) (.lit c :: ts)
  | plain {s : Bool} {c : Char} {rs : List Char} {ts : List Token}
      (hc : c ∉ ['\\', '*', '?', '[']) (h : Tokens (c = '/') rs ts) :
      Tokens s (c :: rs) (.lit c :: ts)
  | any {s : Bool} {rs : List Char} {ts : List Token} (h : Tokens false rs ts) :
      Tokens s ('?' :: rs) (.any :: ts)
  | star {s : Bool} {rs : List Char} {ts : List Token} (hs : s = true → ¬ FillsSegment rs)
      (h : Tokens false rs ts) : Tokens s ('*' :: rs) (.star :: ts)
  | segs {rs : List Char} {ts : List Token} (h : Tokens true rs ts) :
      Tokens true ('*' :: '*' :: '/' :: rs) (.segs :: ts)
  | rest : Tokens true ['*', '*'] [.rest]
  | cls {s : Bool} {t rs : List Char} {items : List (Char × Char)} {ts : List Token}
      (ht : Items t items) (hne : items ≠ []) (hmark : ∀ x xs, t = x :: xs → x ∉ ['!', '^'])
      (h : Tokens false rs ts) : Tokens s ('[' :: (t ++ ']' :: rs)) (.cls false items :: ts)
  | ncls {s : Bool} {mark : Char} {t rs : List Char} {items : List (Char × Char)}
      {ts : List Token} (hmark : mark ∈ ['!', '^']) (ht : Items t items) (hne : items ≠ [])
      (h : Tokens false rs ts) : Tokens s ('[' :: mark :: (t ++ ']' :: rs)) (.cls true items :: ts)

/-- What each part stands for, without regular expressions. -/
def Token.Matches : Token → List Char → Prop
  | .lit c, w => w = [c]
  | .any, w => ∃ c, w = [c] ∧ c ≠ '/'
  | .star, w => '/' ∉ w
  | .cls negate items, w => ∃ c, w = [c] ∧ c ≠ '/' ∧ inRanges items c = !negate
  | .segs, w => ∃ segs : List (List Char), (∀ s ∈ segs, '/' ∉ s) ∧ w = segs.flatMap (· ++ ['/'])
  | .rest, _ => True

/-- The name falls into pieces that the parts match. -/
def Cut (ts : List Token) (name : List Char) : Prop :=
  ∃ pieces, List.Forall₂ Token.Matches ts pieces ∧ pieces.flatten = name

/-- The regular expression of each part. -/
def Token.text : Token → List Char
  | .lit c => quoteMeta c
  | .any => "[^/]".toList
  | .star => "[^/]*".toList
  | .cls negate items => classText negate items
  | .segs => "(?:[^/]*/)*".toList
  | .rest => ".*".toList

/-- The literals in front. -/
def lead : List Token → List Char
  | .lit c :: ts => c :: lead ts
  | _ => []

variable {items : List (Char × Char)} {t : List Char} {ts : List Token}

theorem loop_drop : ∀ (rs : List Char) (k : ℕ) (b : Build), loop rs k b = loop (rs.drop k) 0 b
  | [], k, b => by simp [loop]
  | _ :: _, 0, _ => rfl
  | _ :: rs, k + 1, b => by
    rw [loop, List.drop_succ_cons]
    exact loop_drop rs k b

theorem classItems_drop : ∀ (rs : List Char) (k n : ℕ) (items : List (Char × Char)),
    k ≤ rs.length → classItems rs k n items = classItems (rs.drop k) 0 (n + k) items
  | [], 0, _, _, _ => rfl
  | _ :: _, 0, _, _, _ => rfl
  | _ :: rs, k + 1, n, items, h => by
    rw [classItems, List.drop_succ_cons, classItems_drop rs k _ _ (by simpa using h)]
    congr 1
    omega

theorem Spelled.classRune {c : Char} (h : Spelled t c) :
    ∃ r rest, t = r :: rest ∧ r ≠ ']' ∧ ∀ u, classRune r (rest ++ u) = .ok (c, t.length) := by
  cases h with
  | plain h =>
    simp only [List.mem_cons, List.not_mem_nil, or_false, not_or] at h
    exact ⟨c, [], rfl, h.2, fun u => by simp [Refglob.classRune, h.1]⟩
  | escaped => exact ⟨'\\', [c], rfl, by decide, fun u => by simp [Refglob.classRune]⟩

section items

variable {t t' v : List Char} {c lo hi : Char} {n : ℕ} {acc : List (Char × Char)}

/-- A single character of a class. -/
theorem classItems_single (ht : Spelled t c) (hv : ∀ x xs, v = '-' :: x :: xs → x = ']') :
    classItems (t ++ v) 0 n acc = classItems v 0 (n + t.length) (acc ++ [(c, c)]) := by
  obtain ⟨r, rest, rfl, hr, hrune⟩ := ht.classRune
  have hdrop : (r :: (rest ++ v)).drop (r :: rest).length = v :=
    show ((r :: rest) ++ v).drop _ = v from List.drop_left
  have hskip : classItems (rest ++ v) ((r :: rest).length - 1) (n + 1) (acc ++ [(c, c)])
      = classItems v 0 (n + (r :: rest).length) (acc ++ [(c, c)]) := by
    rw [classItems_drop _ _ _ _ (by simp), List.length_cons, Nat.add_sub_cancel, List.drop_left]
    congr 1
    omega
  rw [List.cons_append, classItems, if_neg hr, hrune v]
  dsimp only
  rw [hdrop]
  split
  · rename_i d x xs
    rw [if_neg]
    · exact hskip
    · rintro ⟨rfl, hx⟩
      exact hx (hv x xs rfl)
  · exact hskip

/-- A range of a class. -/
theorem classItems_range (ht : Spelled t lo) (ht' : Spelled t' hi) (hle : lo ≤ hi) :
    classItems (t ++ '-' :: (t' ++ v)) 0 n acc
      = classItems v 0 (n + (t ++ '-' :: t').length) (acc ++ [(lo, hi)]) := by
  obtain ⟨r, rest, rfl, hr, hrune⟩ := ht.classRune
  obtain ⟨r', rest', rfl, hr', hrune'⟩ := ht'.classRune
  have hdrop : (r :: (rest ++ '-' :: (r' :: rest' ++ v))).drop (r :: rest).length
      = '-' :: (r' :: rest' ++ v) :=
    show ((r :: rest) ++ '-' :: (r' :: rest' ++ v)).drop _ = _ from List.drop_left
  rw [List.cons_append, classItems, if_neg hr, hrune]
  dsimp only
  rw [hdrop, List.cons_append]
  dsimp only
  rw [if_pos ⟨rfl, hr'⟩, hrune' v]
  dsimp only
  rw [if_neg (Char.not_lt.2 hle), classItems_drop _ _ _ _ (by simp; omega)]
  have hskip : (rest ++ '-' :: r' :: (rest' ++ v)).drop ((r :: rest).length + (r' :: rest').length)
      = v := by
    have : rest ++ '-' :: r' :: (rest' ++ v) = (rest ++ '-' :: r' :: rest') ++ v := by simp
    rw [this]
    exact List.drop_left' (by simp; omega)
  rw [hskip]
  congr 1
  simp
  omega

end items

/-- The loop reads the items of a class. -/
theorem classItems_of_items (h : Items t items) (rest : List Char) (n : ℕ)
    (acc : List (Char × Char)) :
    classItems (t ++ ']' :: rest) 0 n acc = .ok (acc ++ items, n + t.length) := by
  induction h generalizing n acc with
  | nil => simp [classItems]
  | @single t u c items ht hu h ih =>
    have hv : ∀ x xs, u ++ ']' :: rest = '-' :: x :: xs → x = ']' := by
      intro x xs hx
      cases u with
      | nil => cases hx
      | cons y u =>
        cases u with
        | nil =>
          simp only [List.cons_append, List.nil_append, List.cons.injEq] at hx
          exact hx.2.1.symm
        | cons z u =>
          simp only [List.cons_append, List.cons.injEq] at hx
          exact absurd (hx.1 ▸ rfl) (hu z u)
    rw [List.append_assoc, classItems_single ht hv, ih, List.append_assoc, List.singleton_append,
      List.length_append, Nat.add_assoc]
  | @range t t' u lo hi items ht ht' hle h ih =>
    have hassoc : t ++ '-' :: (t' ++ u) ++ ']' :: rest = t ++ '-' :: (t' ++ (u ++ ']' :: rest)) := by
      simp
    rw [hassoc, classItems_range ht ht' hle, ih, List.append_assoc, List.singleton_append]
    congr 2
    simp
    omega

theorem spelled_of_classRune {r c : Char} {rs : List Char} {k : ℕ} (hr : r ≠ ']')
    (h : classRune r rs = .ok (c, k)) :
    ∃ t v, Spelled t c ∧ r :: rs = t ++ v ∧ t.length = k := by
  unfold classRune at h
  split_ifs at h with hs
  · cases rs with
    | nil => cases h
    | cons x rs =>
      cases h
      exact ⟨_, rs, .escaped, by rw [hs]; rfl, rfl⟩
  · cases h
    exact ⟨_, rs, .plain (by simp [hs, hr]), rfl, rfl⟩

theorem Items.not_bracket {ys : List Char} :
    ¬ Items (']' :: ys) items := by
  intro h
  generalize ht : ']' :: ys = t at h
  cases h with
  | nil => cases ht
  | single hs _ _ =>
    obtain ⟨r, rest, rfl, hr, -⟩ := hs.classRune
    rw [List.cons_append, List.cons.injEq] at ht
    exact hr ht.1.symm
  | range hs _ _ _ =>
    obtain ⟨r, rest, rfl, hr, -⟩ := hs.classRune
    rw [List.cons_append, List.cons.injEq] at ht
    exact hr ht.1.symm

theorem Items.not_dash_bracket {ys : List Char} :
    ¬ Items ('-' :: ']' :: ys) items := by
  intro h
  generalize ht : '-' :: ']' :: ys = t at h
  cases h with
  | nil => cases ht
  | single hs _ h =>
    cases hs with
    | plain =>
      cases ht
      exact h.not_bracket
    | escaped => cases ht
  | range hs _ _ _ => cases hs <;> cases ht

/-- What the loop has read are items. -/
theorem items_of_classItems : ∀ (m : ℕ) (rs : List Char) (n : ℕ) (acc out : List (Char × Char))
    (k : ℕ), rs.length ≤ m → classItems rs 0 n acc = .ok (out, k) →
    ∃ t items rest, rs = t ++ ']' :: rest ∧ Items t items ∧ out = acc ++ items ∧ k = n + t.length
  | 0, [], _, _, _, _, _, h => by simp [classItems] at h
  | _ + 1, [], _, _, _, _, _, h => by simp [classItems] at h
  | m + 1, r :: rs, n, acc, out, k, hm, h => by
    by_cases hr : r = ']'
    · rw [classItems, if_pos hr] at h
      cases h
      exact ⟨[], [], rs, by rw [hr]; rfl, .nil, by simp, rfl⟩
    rcases hrune : classRune r rs with e | ⟨lo, j⟩
    · rw [classItems, if_neg hr, hrune] at h
      cases h
    obtain ⟨t, v, ht, heq, rfl⟩ := spelled_of_classRune hr hrune
    have htpos : 0 < t.length := by cases ht <;> simp
    have hlen : t.length + v.length ≤ m + 1 := by rw [← List.length_append, ← heq]; exact hm
    by_cases hv : ∀ x xs, v = '-' :: x :: xs → x = ']'
    · -- a single character
      rw [heq, classItems_single ht hv] at h
      obtain ⟨u, items, rest, rfl, hu, rfl, rfl⟩ :=
        items_of_classItems m v _ _ _ _ (by omega) h
      refine ⟨t ++ u, (lo, lo) :: items, rest, by rw [heq, List.append_assoc],
        .single ht (fun x xs hx => ?_) hu, by simp, by rw [List.length_append, Nat.add_assoc]⟩
      subst hx
      have hx := hv x (xs ++ ']' :: rest) rfl
      exact Items.not_dash_bracket (hx ▸ hu)
    · push Not at hv
      obtain ⟨x, xs, rfl, hx⟩ := hv
      obtain ⟨hi, t', v', ht', heq', hle⟩ :
          ∃ hi t' v', Spelled t' hi ∧ x :: xs = t' ++ v' ∧ lo ≤ hi := by
        have hdrop : (r :: rs).drop t.length = '-' :: x :: xs := by rw [heq, List.drop_left]
        rw [classItems, if_neg hr, hrune] at h
        dsimp only at h
        rw [hdrop] at h
        dsimp only at h
        rw [if_pos ⟨rfl, hx⟩] at h
        rcases hrune' : classRune x xs with e | ⟨hi, j'⟩
        · rw [hrune'] at h
          cases h
        · rw [hrune'] at h
          dsimp only at h
          split_ifs at h with hlt
          obtain ⟨t', v', ht', heq', -⟩ := spelled_of_classRune hx hrune'
          exact ⟨hi, t', v', ht', heq', Char.not_lt.1 hlt⟩
      rw [heq, heq', classItems_range ht ht' hle] at h
      rw [heq'] at hlen
      obtain ⟨u, items, rest, rfl, hu, rfl, rfl⟩ := items_of_classItems m v' _ _ _ _
        (by simp only [List.length_cons, List.length_append] at hlen; omega) h
      refine ⟨t ++ '-' :: (t' ++ u), (lo, hi) :: items, rest, ?_, .range ht ht' hle hu, by simp, ?_⟩
      · rw [heq, heq']
        simp
      · simp
        omega

theorem parseClass_of_items {t rs : List Char} (ht : Items t items) (hne : items ≠ [])
    (hmark : ∀ x xs, t = x :: xs → x ∉ ['!', '^']) :
    parseClass ('[' :: (t ++ ']' :: rs)) = .ok (classText false items, t.length + 2) := by
  have hneg : (t ++ ']' :: rs).head?.any (· ∈ ['!', '^']) = false := by
    cases t with
    | nil => rfl
    | cons x xs => simpa using hmark x xs rfl
  rw [parseClass, List.tail_cons, classHead, hneg, if_neg Bool.false_ne_true, classItems_of_items ht]
  simp [hne]

theorem parseClass_of_marked {mark : Char} {t rs : List Char} (hmark : mark ∈ ['!', '^'])
    (ht : Items t items) (hne : items ≠ []) :
    parseClass ('[' :: mark :: (t ++ ']' :: rs)) = .ok (classText true items, t.length + 3) := by
  have hneg : (mark :: (t ++ ']' :: rs)).head?.any (· ∈ ['!', '^']) = true := by simpa using hmark
  rw [parseClass, List.tail_cons, classHead, hneg, if_pos rfl, List.tail_cons, classItems_of_items ht]
  simp [hne]

/-- What the loop has written when it has been through the tokens of the pattern. -/
structure Built (b : Build) (ts : List Token) (b' : Build) : Prop where
  re : b'.re = b.re ++ ts.flatMap Token.text
  literalPrefix : b'.literalPrefix = b.literalPrefix ++ if b.literal then lead ts else []

theorem Built.char {b b' : Build} {c : Char} (h : Built (b.char c) ts b') :
    Built b (.lit c :: ts) b' where
  re := by
    rw [h.re, List.flatMap_cons]
    exact List.append_assoc b.re (quoteMeta c) _
  literalPrefix := by
    rw [h.literalPrefix]
    simp only [Build.char, lead]
    split_ifs with hl <;> simp [hl]

theorem Built.wild {b b' : Build} {t : Token} {s : Bool} (ht : lead (t :: ts) = [])
    (h : Built (b.wild t.text s) ts b') : Built b (t :: ts) b' where
  re := by
    rw [h.re, List.flatMap_cons]
    exact List.append_assoc b.re t.text _
  literalPrefix := by simp [h.literalPrefix, Build.wild, ht]

section step

variable {b : Build} {rs : List Char} {c : Char}

theorem loop_escaped : loop ('\\' :: c :: rs) 0 b = loop rs 0 (b.char c) := by
  rw [loop, if_pos rfl]
  exact loop_drop _ 1 _

theorem loop_plain (hc : c ∉ ['\\', '*', '?', '[']) : loop (c :: rs) 0 b = loop rs 0 (b.char c) := by
  simp only [List.mem_cons, List.not_mem_nil, or_false, not_or] at hc
  rw [loop, if_neg hc.1, if_neg hc.2.1, if_neg hc.2.2.1, if_neg hc.2.2.2]

theorem loop_any : loop ('?' :: rs) 0 b = loop rs 0 (b.wild Token.any.text false) := by
  rw [loop, if_neg (by decide), if_neg (by decide), if_pos rfl]
  rfl

theorem fillsSegment_iff : FillsSegment rs ↔
    rs.head? = some '*' ∧ (rs.length = 1 ∨ rs[1]? = some '/') := by
  constructor
  · rintro (rfl | ⟨rest, rfl⟩) <;> simp
  · rintro ⟨hhead, h⟩
    rcases rs with _ | ⟨x, _ | ⟨y, rest⟩⟩
    · cases hhead
    · cases hhead
      exact .inl rfl
    · simp only [List.head?_cons, Option.some.injEq] at hhead
      simp only [List.length_cons, List.getElem?_cons_succ, List.getElem?_cons_zero,
        Option.some.injEq] at h
      exact .inr ⟨rest, by rw [hhead, h.resolve_left (by omega)]⟩

theorem loop_star (h : b.segStart = true → ¬ FillsSegment rs) :
    loop ('*' :: rs) 0 b = loop rs 0 (b.wild Token.star.text false) := by
  rw [loop, if_neg (by decide), if_pos rfl, if_neg]
  · rfl
  · rintro ⟨hdouble, hs, hend⟩
    exact h hs (fillsSegment_iff.2 ⟨hdouble, hend⟩)

theorem loop_segs (h : b.segStart = true) :
    loop ('*' :: '*' :: '/' :: rs) 0 b = loop rs 0 (b.wild Token.segs.text true) := by
  rw [loop, if_neg (by decide), if_pos rfl, if_pos ⟨rfl, h, .inr rfl⟩, if_neg (by simp)]
  exact loop_drop _ 2 _

theorem loop_rest (h : b.segStart = true) :
    loop ['*', '*'] 0 b = .ok (b.wild Token.rest.text true) := by
  rw [loop, if_neg (by decide), if_pos rfl, if_pos ⟨rfl, h, .inl rfl⟩, if_pos List.length_singleton]
  rfl

theorem loop_class {text : List Char} {n : ℕ} (h : parseClass ('[' :: rs) = .ok (text, n)) :
    loop ('[' :: rs) 0 b = loop (rs.drop (n - 1)) 0 (b.wild text false) := by
  rw [loop, if_neg (by decide), if_neg (by decide), if_neg (by decide), if_pos rfl, h]
  exact loop_drop _ _ _

end step

theorem drop_class (t rest : List Char) : (t ++ ']' :: rest).drop (t.length + 2 - 1) = rest := by
  rw [List.append_cons]
  exact List.drop_left' (by simp)

theorem drop_marked (mark : Char) (t rest : List Char) :
    (mark :: (t ++ ']' :: rest)).drop (t.length + 3 - 1) = rest :=
  drop_class t rest

/-- The loop builds the text of the parts. -/
theorem loop_of_tokens {s : Bool} {rs : List Char} (h : Tokens s rs ts) :
    ∀ b : Build, b.segStart = s → ∃ b', loop rs 0 b = .ok b' ∧ Built b ts b' := by
  induction h with
  | nil => exact fun b _ => ⟨b, rfl, by simp, by simp [lead]⟩
  | @escaped s c rs ts h ih =>
    intro b _
    obtain ⟨b', hb, hbuilt⟩ := ih (b.char c) rfl
    exact ⟨b', loop_escaped.trans hb, hbuilt.char⟩
  | @plain s c rs ts hc h ih =>
    intro b _
    obtain ⟨b', hb, hbuilt⟩ := ih (b.char c) rfl
    exact ⟨b', (loop_plain hc).trans hb, hbuilt.char⟩
  | @any s rs ts h ih =>
    intro b _
    obtain ⟨b', hb, hbuilt⟩ := ih (b.wild Token.any.text false) rfl
    exact ⟨b', loop_any.trans hb, hbuilt.wild rfl⟩
  | @star s rs ts hs h ih =>
    intro b hbs
    obtain ⟨b', hb, hbuilt⟩ := ih (b.wild Token.star.text false) rfl
    exact ⟨b', (loop_star (hbs ▸ hs)).trans hb, hbuilt.wild rfl⟩
  | @segs rs ts h ih =>
    intro b hbs
    obtain ⟨b', hb, hbuilt⟩ := ih (b.wild Token.segs.text true) rfl
    exact ⟨b', (loop_segs hbs).trans hb, hbuilt.wild rfl⟩
  | rest =>
    intro b hbs
    exact ⟨_, loop_rest hbs, Built.wild (s := true) rfl ⟨by simp, by simp [lead]⟩⟩
  | @cls s t rs items ts ht hne hmark h ih =>
    intro b _
    obtain ⟨b', hb, hbuilt⟩ := ih (b.wild (Token.cls false items).text false) rfl
    refine ⟨b', ?_, hbuilt.wild rfl⟩
    rw [loop_class (parseClass_of_items ht hne hmark), drop_class]
    exact hb
  | @ncls s mark t rs items ts hmark ht hne h ih =>
    intro b _
    obtain ⟨b', hb, hbuilt⟩ := ih (b.wild (Token.cls true items).text false) rfl
    refine ⟨b', ?_, hbuilt.wild rfl⟩
    rw [loop_class (parseClass_of_marked hmark ht hne), drop_marked]
    exact hb

/-- A class that parses consists of items. -/
theorem items_of_parseClass {rs text : List Char} {n : ℕ}
    (h : parseClass ('[' :: rs) = .ok (text, n)) :
    ∃ t items rest, Items t items ∧ items ≠ [] ∧
      (rs = t ++ ']' :: rest ∧ (∀ x xs, t = x :: xs → x ∉ ['!', '^']) ∧ n = t.length + 2 ∨
        ∃ mark ∈ ['!', '^'], rs = mark :: (t ++ ']' :: rest) ∧ n = t.length + 3) := by
  rw [parseClass, List.tail_cons, classHead] at h
  cases hneg : rs.head?.any (· ∈ ['!', '^']) with
  | false =>
    rw [hneg, if_neg Bool.false_ne_true] at h
    rcases hi : classItems rs 0 0 [] with e | ⟨items, k⟩
    · rw [hi] at h
      cases h
    rw [hi] at h
    dsimp only at h
    by_cases hne : items = []
    · rw [if_pos hne] at h
      cases h
    rw [if_neg hne] at h
    cases h
    obtain ⟨t, items, rest, rfl, ht, rfl, rfl⟩ := items_of_classItems _ _ _ _ _ _ le_rfl hi
    refine ⟨t, _, rest, ht, hne, .inl ⟨rfl, fun x xs hx => ?_, by simp⟩⟩
    subst hx
    simpa using hneg
  | true =>
    rcases rs with _ | ⟨mark, rs⟩
    · cases hneg
    rw [hneg, if_pos rfl, List.tail_cons] at h
    rcases hi : classItems rs 0 0 [] with e | ⟨items, k⟩
    · rw [hi] at h
      cases h
    rw [hi] at h
    dsimp only at h
    by_cases hne : items = []
    · rw [if_pos hne] at h
      cases h
    rw [if_neg hne] at h
    cases h
    obtain ⟨t, items, rest, rfl, ht, rfl, rfl⟩ := items_of_classItems _ _ _ _ _ _ le_rfl hi
    exact ⟨t, _, rest, ht, hne, .inr ⟨mark, by simpa using hneg, rfl, by simp⟩⟩

/-- A pattern that parses consists of parts. -/
theorem tokens_of_loop : ∀ (m : ℕ) (rs : List Char) (b b' : Build), rs.length ≤ m →
    loop rs 0 b = .ok b' → ∃ ts, Tokens b.segStart rs ts
  | _, [], _, _, _, _ => ⟨[], .nil⟩
  | m + 1, r :: rs, b, b', hm, h => by
    have hlen : rs.length ≤ m := by simpa using hm
    by_cases hesc : r = '\\'
    · subst hesc
      cases rs with
      | nil => simp [loop] at h
      | cons c rs =>
        rw [loop_escaped] at h
        obtain ⟨ts, hts⟩ := tokens_of_loop m rs _ b' (by simp at hlen; omega) h
        exact ⟨_, .escaped hts⟩
    by_cases hstar : r = '*'
    · subst hstar
      by_cases hs : b.segStart = true ∧ FillsSegment rs
      · rw [hs.1]
        rcases hs.2 with rfl | ⟨rest, rfl⟩
        · exact ⟨_, .rest⟩
        · rw [loop_segs hs.1] at h
          obtain ⟨ts, hts⟩ := tokens_of_loop m rest _ b' (by simp at hlen; omega) h
          exact ⟨_, .segs hts⟩
      · have hs : b.segStart = true → ¬ FillsSegment rs := fun h1 h2 => hs ⟨h1, h2⟩
        rw [loop_star hs] at h
        obtain ⟨ts, hts⟩ := tokens_of_loop m rs _ b' hlen h
        exact ⟨_, .star hs hts⟩
    by_cases hany : r = '?'
    · subst hany
      rw [loop_any] at h
      obtain ⟨ts, hts⟩ := tokens_of_loop m rs _ b' hlen h
      exact ⟨_, .any hts⟩
    by_cases hcls : r = '['
    · subst hcls
      rcases hp : parseClass ('[' :: rs) with e | ⟨text, n⟩
      · simp [loop, hp] at h
      rw [loop_class hp] at h
      obtain ⟨t, items, rest, ht, hne, ⟨rfl, hmark, rfl⟩ | ⟨mark, hmark, rfl, rfl⟩⟩ :=
        items_of_parseClass hp
      · rw [drop_class] at h
        obtain ⟨ts, hts⟩ := tokens_of_loop m rest _ b' (by simp at hlen; omega) h
        exact ⟨_, .cls ht hne hmark hts⟩
      · rw [drop_marked] at h
        obtain ⟨ts, hts⟩ := tokens_of_loop m rest _ b' (by simp at hlen; omega) h
        exact ⟨_, .ncls hmark ht hne hts⟩
    · rw [loop_plain (by simp [hesc, hstar, hany, hcls])] at h
      obtain ⟨ts, hts⟩ := tokens_of_loop m rs _ b' hlen h
      exact ⟨_, .plain (by simp [hesc, hstar, hany, hcls]) hts⟩

theorem Items.unique {t u rest rest' : List Char} {items items' : List (Char × Char)}
    (h : Items t items) (h' : Items u items') (heq : t ++ ']' :: rest = u ++ ']' :: rest') :
    t = u ∧ items = items' ∧ rest = rest' := by
  have hread := classItems_of_items h rest 0 []
  rw [heq, classItems_of_items h' rest' 0 []] at hread
  simp only [List.nil_append, Nat.zero_add, Except.ok.injEq, Prod.mk.injEq] at hread
  obtain ⟨rfl, hrest⟩ := List.append_inj heq hread.2.symm
  exact ⟨rfl, hread.1.symm, (List.cons.inj hrest).2⟩

/-- It does so in one way only. -/
theorem Tokens.unique {s : Bool} {rs : List Char} {ts ts' : List Token} (h : Tokens s rs ts)
    (h' : Tokens s rs ts') : ts = ts' := by
  induction h generalizing ts' with
  | nil =>
    cases h'
    rfl
  | escaped _ ih =>
    cases h' with
    | escaped h' => rw [ih h']
    | plain hc _ => exact absurd List.mem_cons_self hc
  | plain hc _ ih =>
    cases h' with
    | plain _ h' => rw [ih h']
    | escaped _ => exact absurd List.mem_cons_self hc
    | any _ | star _ _ | segs _ | rest | cls _ _ _ _ | ncls _ _ _ _ => simp at hc
  | any _ ih =>
    cases h' with
    | any h' => rw [ih h']
    | plain hc _ => simp at hc
  | star hs _ ih =>
    cases h' with
    | star _ h' => rw [ih h']
    | plain hc _ => simp at hc
    | segs _ => exact absurd (.inr ⟨_, rfl⟩) (hs rfl)
    | rest => exact absurd (.inl rfl) (hs rfl)
  | segs _ ih =>
    cases h' with
    | segs h' => rw [ih h']
    | plain hc _ => simp at hc
    | star hs _ => exact absurd (.inr ⟨_, rfl⟩) (hs rfl)
  | rest =>
    cases h' with
    | rest => rfl
    | plain hc _ => simp at hc
    | star hs _ => exact absurd (.inl rfl) (hs rfl)
  | @cls s t rs items ts ht _ hmark _ ih =>
    generalize hrs : '[' :: (t ++ ']' :: rs) = l at h'
    cases h' with
    | cls ht' _ _ h' =>
      obtain ⟨-, rfl, rfl⟩ := ht.unique ht' (List.cons.inj hrs).2
      rw [ih h']
    | ncls hm _ _ _ =>
      have hhead := (List.cons.inj hrs).2
      cases t with
      | nil =>
        rw [List.nil_append, List.cons.injEq] at hhead
        rw [← hhead.1] at hm
        simp at hm
      | cons x xs =>
        rw [List.cons_append, List.cons.injEq] at hhead
        exact absurd (hhead.1 ▸ hm) (hmark x xs rfl)
    | plain hc _ =>
      rw [← (List.cons.inj hrs).1] at hc
      simp at hc
    | nil | escaped _ | any _ | star _ _ | segs _ | rest => simp at hrs
  | @ncls s mark t rs items ts hmark ht _ _ ih =>
    generalize hrs : '[' :: mark :: (t ++ ']' :: rs) = l at h'
    cases h' with
    | ncls _ ht' _ h' =>
      obtain ⟨-, rfl, rfl⟩ := ht.unique ht' (List.cons.inj (List.cons.inj hrs).2).2
      rw [ih h']
    | @cls _ t' _ _ _ _ _ hm _ =>
      have hhead := (List.cons.inj hrs).2
      cases t' with
      | nil =>
        rw [List.nil_append, List.cons.injEq] at hhead
        rw [hhead.1] at hmark
        simp at hmark
      | cons x xs =>
        rw [List.cons_append, List.cons.injEq] at hhead
        exact absurd (hhead.1 ▸ hmark) (hm x xs rfl)
    | plain hc _ =>
      rw [← (List.cons.inj hrs).1] at hc
      simp at hc
    | nil | escaped _ | any _ | star _ _ | segs _ | rest => simp at hrs

end Dstore.Refglob

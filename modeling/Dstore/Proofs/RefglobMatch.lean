import Dstore.Proofs.Refglob

/-!
# The expression of a glob

Reading the text of a token as RE2 reads it puts one expression behind the sequence that is open
(`Reads`). For a class the text is read range by range; carving the separator out of the ranges and
quoting them leave the set of characters the class lists, without the separator.
-/

namespace Dstore.Refglob

open Re2 (feed feeds feeds_append feeds_cons feeds_nil inRanges Class State)

/-- Read where an expression goes on, the text puts one item behind the innermost sequence, and it
matches the words that `P` holds of. -/
def Reads (text : List Char) (P : List Char → Prop) : Prop :=
  ∀ (seq : List (Regex Char)) (outer : List (List (Regex Char))) (starred : Bool), ∃ r starred',
    feeds ⟨.plain, seq :: outer, starred⟩ text = some ⟨.plain, (r :: seq) :: outer, starred'⟩ ∧
      ∀ w, w ∈ r.lang ↔ P w

variable {items : List (Char × Char)} {ts : List Token}

theorem Reads.congr {text : List Char} {P Q : List Char → Prop} (h : Reads text P)
    (hPQ : ∀ w, P w ↔ Q w) : Reads text Q := by
  intro seq outer starred
  obtain ⟨r, starred', hfeed, hr⟩ := h seq outer starred
  exact ⟨r, starred', hfeed, fun w => (hr w).trans (hPQ w)⟩

theorem reads_lit (c : Char) : Reads (quoteMeta c) (· = [c]) := by
  intro seq outer starred
  refine ⟨.atom (· = c), false, ?_, fun w => ?_⟩
  · unfold quoteMeta
    split_ifs with hc
    · have hpunct : (special.all fun c => c ≠ 'z' ∧ Re2.punct c = true) = true := by decide
      obtain ⟨hz, hp⟩ := of_decide_eq_true (List.all_eq_true.1 hpunct c hc)
      simp [feeds_cons, feed, State.feedPlain, hz, hp, State.push]
    · simp only [special, List.mem_cons, List.not_mem_nil, or_false, not_or] at hc
      simp [feeds_cons, feed, State.feedPlain, hc, State.push]
  · rw [Regex.mem_atom]
    simp

theorem set_noSlash (c : Char) :
    Class.set { opening := false, negated := true, slot := .low '/' } c = true ↔ c ≠ '/' := by
  simp only [Class.set, Class.closed, inRanges, List.nil_append, List.any_cons, List.any_nil,
    Bool.or_false, bne_iff_ne, ne_eq, Bool.not_eq_true, decide_eq_false_iff_not]
  rw [not_iff_not]
  exact ⟨fun h => Char.le_antisymm h.2 h.1, fun h => h ▸ ⟨Char.le_refl _, Char.le_refl _⟩⟩

theorem reads_any : Reads Token.any.text (Token.Matches .any) := by
  intro seq outer starred
  refine ⟨.atom (Class.set { opening := false, negated := true, slot := .low '/' }), false, rfl,
    fun w => ?_⟩
  simp only [Regex.mem_atom, set_noSlash, Token.Matches]
  exact exists_congr fun c => and_comm

theorem mem_star_noSlash {w : List Char} :
    w ∈ (Regex.star (.atom (Class.set { opening := false, negated := true, slot := .low '/' }))).lang
      ↔ '/' ∉ w := by
  simp only [Regex.mem_star_atom, set_noSlash]
  exact ⟨fun h hw => h _ hw rfl, fun h c hc hcs => h (hcs ▸ hc)⟩

theorem reads_star : Reads Token.star.text (Token.Matches .star) := by
  intro seq outer starred
  exact ⟨.star (.atom (Class.set { opening := false, negated := true, slot := .low '/' })), true,
    rfl, fun w => mem_star_noSlash⟩

theorem reads_rest : Reads Token.rest.text ('\n' ∉ ·) := by
  intro seq outer starred
  refine ⟨.star (.atom (· ≠ '\n')), true, rfl, fun w => ?_⟩
  simp only [Regex.mem_star_atom, decide_eq_true_eq]
  exact ⟨fun h hw => h _ hw rfl, fun h c hc hcs => h (hcs ▸ hc)⟩

/-- The text of `**/` is read as any number of segments. -/
theorem reads_segs : Reads Token.segs.text (Token.Matches .segs) := by
  intro seq outer starred
  refine ⟨.star (.seq [.star (.atom (Class.set
      { opening := false, negated := true, slot := .low '/' })), .atom (· = '/')]), true, rfl,
    fun w => ?_⟩
  have hseg : ∀ u, u ∈ (Regex.seq [.star (.atom (Class.set
      { opening := false, negated := true, slot := .low '/' })), .atom (· = '/')]).lang ↔
      ∃ s, '/' ∉ s ∧ u = s ++ ['/'] := by
    intro u
    rw [Regex.mem_seq]
    constructor
    · rintro ⟨pieces, hp, rfl⟩
      obtain ⟨s, rest, hs, hrest, rfl⟩ := List.forall₂_cons_left_iff.1 hp
      obtain ⟨t, rest, ht, hnil, rfl⟩ := List.forall₂_cons_left_iff.1 hrest
      cases hnil
      obtain ⟨c, hc, rfl⟩ := Regex.mem_atom.1 ht
      rw [of_decide_eq_true hc]
      exact ⟨s, mem_star_noSlash.1 hs, by simp⟩
    · rintro ⟨s, hs, rfl⟩
      exact ⟨[s, ['/']], .cons (mem_star_noSlash.2 hs) (.cons ⟨'/', by simp, rfl⟩ .nil), by simp⟩
  rw [Regex.lang, Language.mem_kstar]
  constructor
  · rintro ⟨L, rfl, hL⟩
    induction L with
    | nil => exact ⟨[], by simp, rfl⟩
    | cons u L ih =>
      obtain ⟨s, hs, rfl⟩ := (hseg u).1 (hL u List.mem_cons_self)
      obtain ⟨segs, hsegs, hflat⟩ := ih fun y hy => hL y (List.mem_cons_of_mem _ hy)
      refine ⟨s :: segs, List.forall_mem_cons.2 ⟨hs, hsegs⟩, ?_⟩
      rw [List.flatten_cons, hflat, List.flatMap_cons]
  · rintro ⟨segs, hs, rfl⟩
    refine ⟨segs.map (· ++ ['/']), rfl, fun u hu => ?_⟩
    obtain ⟨s, hmem, rfl⟩ := List.mem_map.1 hu
    exact (hseg _).2 ⟨s, hs s hmem, rfl⟩

section cls

variable {k : Re2.Class} {stack : List (List (Regex Char))} {starred : Bool}

theorem feeds_classQuote (hk : k.escape = none) (c : Char) :
    feeds ⟨.cls k, stack, starred⟩ (classQuote c)
      = (k.take c).map fun k => ⟨.cls k, stack, starred⟩ := by
  unfold classQuote
  split_ifs with hc
  · have hpunct : (['\\', ']', '[', '^', '-'].all fun c => c ≠ 'x' ∧ Re2.punct c = true) = true := by
      decide
    obtain ⟨hx, hp⟩ := of_decide_eq_true (List.all_eq_true.1 hpunct c hc)
    simp [feeds_cons, feed, State.feedClass, hk, Class.takeEscaped, hx, hp, Class.take]
  · simp only [List.mem_cons, List.not_mem_nil, or_false, not_or] at hc
    simp [feeds_cons, feed, State.feedClass, hk, hc]

/-- The class is between two items. -/
structure Between (k : Re2.Class) : Prop where
  escape : k.escape = none
  slot : ∀ lo, k.slot ≠ .dash lo

theorem Between.take (hk : Between k) (c : Char) :
    k.take c = some { opening := false, negated := k.negated, ranges := k.closed, slot := .low c } := by
  rcases k with ⟨o, n, rs, slot, esc⟩
  cases slot with
  | item => simp [Class.take, Class.closed]
  | low lo => simp [Class.take, Class.closed]
  | dash lo => exact absurd rfl (hk.slot lo)

variable (stack starred) in
/-- A range of a class is read as itself. -/
theorem feeds_rangeText (hk : Between k) {r : Char × Char} (hr : r.1 ≤ r.2) :
    ∃ k', feeds ⟨.cls k, stack, starred⟩ (rangeText r) = some ⟨.cls k', stack, starred⟩ ∧
      Between k' ∧ k'.negated = k.negated ∧ k'.closed = k.closed ++ [r] := by
  obtain ⟨lo, hi⟩ := r
  unfold rangeText
  rw [feeds_append, feeds_classQuote hk.escape, hk.take]
  dsimp only [Option.map_some, Option.bind_some]
  by_cases heq : hi = lo
  · rw [if_neg (not_not.2 heq), feeds_nil]
    exact ⟨_, rfl, ⟨rfl, by simp⟩, rfl, by simp [Class.closed, heq]⟩
  · rw [if_pos heq, feeds_cons]
    have hdash : feed ⟨.cls ⟨false, k.negated, k.closed, .low lo, none⟩, stack, starred⟩ '-'
        = some ⟨.cls ⟨false, k.negated, k.closed, .dash lo, none⟩, stack, starred⟩ := rfl
    rw [hdash, Option.bind_some, feeds_classQuote rfl]
    have hle : lo ≤ hi := hr
    refine ⟨{ opening := false, negated := k.negated, ranges := k.closed ++ [(lo, hi)] }, ?_,
      ⟨rfl, by simp⟩, rfl, rfl⟩
    simp [Class.take, hle]

theorem feeds_ranges : ∀ {rs : List (Char × Char)} {k : Re2.Class}, Between k → (∀ r ∈ rs, r.1 ≤ r.2) →
    ∃ k', feeds ⟨.cls k, stack, starred⟩ (rs.flatMap rangeText) = some ⟨.cls k', stack, starred⟩ ∧
      Between k' ∧ k'.negated = k.negated ∧ k'.closed = k.closed ++ rs
  | [], k, hk, _ => ⟨k, rfl, hk, rfl, by simp⟩
  | r :: rs, k, hk, hrs => by
    obtain ⟨k₁, hfeed₁, hk₁, hneg₁, hclosed₁⟩ :=
      feeds_rangeText stack starred hk (hrs r List.mem_cons_self)
    obtain ⟨k₂, hfeed₂, hk₂, hneg₂, hclosed₂⟩ :=
      feeds_ranges hk₁ fun x hx => hrs x (List.mem_cons_of_mem _ hx)
    refine ⟨k₂, ?_, hk₂, hneg₂.trans hneg₁, by rw [hclosed₂, hclosed₁]; simp⟩
    rw [List.flatMap_cons, feeds_append, hfeed₁, Option.bind_some, hfeed₂]

theorem feed_bracket (hk : Between k) (hne : k.closed ≠ []) {seq : List (Regex Char)}
    {outer : List (List (Regex Char))} :
    feed ⟨.cls k, seq :: outer, starred⟩ ']'
      = some ⟨.plain, (.atom k.set :: seq) :: outer, false⟩ := by
  have hopen : k.ranges ≠ [] ∨ k.slot ≠ .item := by
    by_contra h
    push Not at h
    simp [Class.closed, h.1, h.2] at hne
  simp [feed, State.feedClass, hk.escape, hopen, State.push]

end cls

section carve

variable {c : Char} {it : Char × Char}

theorem le_iff_toNat {a b : Char} : a ≤ b ↔ a.toNat ≤ b.toNat := Iff.rfl

theorem lt_iff_toNat {a b : Char} : a < b ↔ a.toNat < b.toNat := Iff.rfl

theorem inRanges_carve : inRanges (carve false it) c = true ↔ c ≠ '/' ∧ it.1 ≤ c ∧ c ≤ it.2 := by
  have hslash : c = '/' ↔ c.toNat = 47 := Char.toNat_inj.symm
  have hdot : '.'.toNat = 46 := rfl
  have hsep : '/'.toNat = 47 := rfl
  have hzero : '0'.toNat = 48 := rfl
  unfold carve
  simp only [ne_eq, hslash, le_iff_toNat, lt_iff_toNat, hsep, Bool.not_false, true_and]
  split_ifs <;> simp [inRanges, le_iff_toNat, hdot, hzero] <;> omega

theorem carve_le (hit : it.1 ≤ it.2) {negate : Bool} : ∀ r ∈ carve negate it, r.1 ≤ r.2 := by
  have hdot : '.'.toNat = 46 := rfl
  have hsep : '/'.toNat = 47 := rfl
  have hzero : '0'.toNat = 48 := rfl
  unfold carve
  simp only [le_iff_toNat, lt_iff_toNat, hsep] at hit ⊢
  split_ifs <;> simp [hdot, hzero] <;> omega

/-- Ranges are carved around the slash. -/
theorem inRanges_carved :
    inRanges (items.flatMap (carve false)) c = true ↔ c ≠ '/' ∧ inRanges items c = true := by
  have hany : ∀ rs : List (Char × Char), inRanges rs c = true ↔ ∃ r ∈ rs, r.1 ≤ c ∧ c ≤ r.2 := by
    simp [inRanges]
  have hitem : ∀ it, (∃ r ∈ carve false it, r.1 ≤ c ∧ c ≤ r.2) ↔ c ≠ '/' ∧ it.1 ≤ c ∧ c ≤ it.2 :=
    fun it => (hany _).symm.trans inRanges_carve
  simp only [hany, List.mem_flatMap]
  constructor
  · rintro ⟨r, ⟨it, hit, hr⟩, hc⟩
    obtain ⟨hne, hc⟩ := (hitem it).1 ⟨r, hr, hc⟩
    exact ⟨hne, it, hit, hc⟩
  · rintro ⟨hne, it, hit, hc⟩
    obtain ⟨r, hr, hc⟩ := (hitem it).2 ⟨hne, hc⟩
    exact ⟨r, ⟨it, hit, hr⟩, hc⟩

end carve

theorem Items.le {t : List Char} (h : Items t items) :
    ∀ r ∈ items, r.1 ≤ r.2 := by
  induction h with
  | nil => simp
  | single _ _ _ ih => exact List.forall_mem_cons.2 ⟨Char.le_refl _, ih⟩
  | range _ _ hle _ ih => exact List.forall_mem_cons.2 ⟨hle, ih⟩

/-- The text of a class. -/
def rawText (negate : Bool) (items : List (Char × Char)) : List Char :=
  '[' :: (if negate then ['^', '/'] else []) ++
    (items.flatMap (carve negate)).flatMap rangeText ++ [']']

theorem classText_eq (negate : Bool) (items : List (Char × Char)) : classText negate items
    = if !negate ∧ (rawText negate items).length = 2 then "[^\\x00-\\x\x7b10FFFF\x7d]".toList
      else rawText negate items := by
  unfold classText rawText
  rw [List.flatMap_assoc]

theorem rangeText_ne_nil (r : Char × Char) : rangeText r ≠ [] := by
  unfold rangeText classQuote
  split_ifs <;> simp

/-- A class is read as its ranges, or all else. -/
theorem reads_rawText {negate : Bool} (hitems : ∀ r ∈ items, r.1 ≤ r.2)
    (hne : negate = true ∨ items.flatMap (carve negate) ≠ []) :
    Reads (rawText negate items) fun w => ∃ c, w = [c] ∧
      (inRanges ((if negate then [('/', '/')] else []) ++ items.flatMap (carve negate)) c != negate)
        = true := by
  intro seq outer starred
  have hranges : ∀ r ∈ items.flatMap (carve negate), r.1 ≤ r.2 := by
    intro r hr
    obtain ⟨it, hit, hr⟩ := List.mem_flatMap.1 hr
    exact carve_le (hitems it hit) r hr
  -- the bracket, and the mark with the separator where the class is negated
  obtain ⟨k₀, hopen, hk₀, hneg₀, hclosed₀⟩ : ∃ k₀, feeds ⟨.plain, seq :: outer, starred⟩
      ('[' :: if negate then ['^', '/'] else []) = some ⟨.cls k₀, seq :: outer, starred⟩ ∧
      Between k₀ ∧ k₀.negated = negate ∧ k₀.closed = if negate then [('/', '/')] else [] := by
    cases negate
    · exact ⟨_, rfl, ⟨rfl, by simp⟩, rfl, rfl⟩
    · exact ⟨_, rfl, ⟨rfl, by simp⟩, rfl, rfl⟩
  obtain ⟨k, hfeed, hk, hneg, hclosed⟩ := feeds_ranges hk₀ hranges
  rw [hclosed₀] at hclosed
  have hsome : k.closed ≠ [] := by
    rw [hclosed]
    rcases hne with rfl | hne
    · simp
    · simp [hne]
  refine ⟨.atom k.set, false, ?_, fun w => ?_⟩
  · rw [rawText, feeds_append, feeds_append, hopen, Option.bind_some, hfeed, Option.bind_some,
      feeds_cons, feed_bracket hk hsome, Option.bind_some, feeds_nil]
  · rw [Regex.mem_atom]
    simp only [Class.set, hclosed, hneg, hneg₀]
    exact exists_congr fun c => and_comm

/-- The class of no character. -/
theorem reads_nothing : Reads "[^\\x00-\\x\x7b10FFFF\x7d]".toList fun _ => False := by
  intro seq outer starred
  refine ⟨.atom (Class.set ⟨false, true, [(Char.ofNat 0, Char.ofNat 0x10FFFF)], .item, none⟩), false,
    rfl, fun w => ?_⟩
  rw [Regex.mem_atom]
  refine iff_of_false ?_ id
  rintro ⟨c, hc, -⟩
  have hvalid : c.toNat ≤ 0x10FFFF := by
    rcases c.valid with h | h
    · exact le_trans (Nat.le_of_lt h) (by decide)
    · exact Nat.lt_succ_iff.1 h.2
  have hlow : Char.ofNat 0 ≤ c := le_iff_toNat.2 (Nat.zero_le _)
  have hhigh : c ≤ Char.ofNat 0x10FFFF := le_iff_toNat.2 hvalid
  simp [Class.set, Class.closed, inRanges, hlow, hhigh] at hc

theorem carve_true (items : List (Char × Char)) : items.flatMap (carve true) = items := by
  have h : carve true = fun it => [it] := by
    funext it
    simp [carve]
  rw [h, List.flatMap_singleton']

/-- The text of a class is read as what the class means. -/
theorem reads_cls {t : List Char} (ht : Items t items) (negate : Bool) :
    Reads (classText negate items) (Token.Matches (.cls negate items)) := by
  rw [classText_eq]
  cases negate with
  | true =>
    rw [if_neg (by simp)]
    refine (reads_rawText ht.le (.inl rfl)).congr fun w => exists_congr fun c => and_congr_right ?_
    rintro -
    have hslash : inRanges [('/', '/')] c = true ↔ c = '/' := by
      simp only [inRanges, List.any_cons, List.any_nil, Bool.or_false, decide_eq_true_eq]
      exact ⟨fun h => Char.le_antisymm h.2 h.1, fun h => h ▸ ⟨Char.le_refl _, Char.le_refl _⟩⟩
    have happend : inRanges ([('/', '/')] ++ items) c
        = (inRanges [('/', '/')] c || inRanges items c) := List.any_append
    rw [if_pos rfl, carve_true, happend]
    cases h : inRanges items c <;> simp [← hslash]
  | false =>
    by_cases hnil : items.flatMap (carve false) = []
    · rw [if_pos (by simp [rawText, hnil])]
      refine reads_nothing.congr fun w => iff_of_false id ?_
      rintro ⟨c, -, hc⟩
      have := inRanges_carved.2 hc
      rw [hnil] at this
      cases this
    · have hlen : (rawText false items).length ≠ 2 := by
        obtain ⟨r, hr⟩ := List.exists_mem_of_ne_nil _ hnil
        have hpos : (items.flatMap (carve false)).flatMap rangeText ≠ [] := by
          intro h
          exact rangeText_ne_nil r (List.flatMap_eq_nil_iff.1 h r hr)
        have := List.length_pos_iff.2 hpos
        simp only [rawText, List.length_append, List.length_cons, List.length_nil]
        omega
      rw [if_neg (fun h => hlen h.2)]
      refine (reads_rawText ht.le (.inr hnil)).congr fun w => exists_congr fun c => and_congr_right ?_
      rintro -
      simp only [Bool.false_eq_true, if_false, List.nil_append, Bool.bne_false, Bool.not_false]
      exact inRanges_carved

/-- What the expression of a token matches: for the last `**`, only what has no line break. -/
def Token.Lang : Token → List Char → Prop
  | .rest, w => '\n' ∉ w
  | t, w => t.Matches w

theorem reads_of_tokens {s : Bool} {rs : List Char} (h : Tokens s rs ts) :
    ∀ t ∈ ts, Reads t.text t.Lang := by
  induction h with
  | nil => simp
  | @escaped s c rs ts _ ih => exact List.forall_mem_cons.2 ⟨reads_lit c, ih⟩
  | @plain s c rs ts _ _ ih => exact List.forall_mem_cons.2 ⟨reads_lit c, ih⟩
  | any _ ih => exact List.forall_mem_cons.2 ⟨reads_any, ih⟩
  | star _ _ ih => exact List.forall_mem_cons.2 ⟨reads_star, ih⟩
  | segs _ ih => exact List.forall_mem_cons.2 ⟨reads_segs, ih⟩
  | rest => exact List.forall_mem_singleton.2 reads_rest
  | cls ht _ _ _ ih => exact List.forall_mem_cons.2 ⟨reads_cls ht false, ih⟩
  | ncls _ ht _ _ ih => exact List.forall_mem_cons.2 ⟨reads_cls ht true, ih⟩

/-- The texts of the parts are read one after the other. -/
theorem feeds_tokens : ∀ {ts : List Token}, (∀ t ∈ ts, Reads t.text t.Lang) →
    ∀ (seq : List (Regex Char)) (starred : Bool), ∃ rs starred',
      feeds ⟨.plain, [seq], starred⟩ (ts.flatMap Token.text)
        = some ⟨.plain, [rs.reverse ++ seq], starred'⟩ ∧
      List.Forall₂ (fun t r => ∀ w, w ∈ Regex.lang r ↔ Token.Lang t w) ts rs
  | [], _, seq, starred => ⟨[], starred, rfl, .nil⟩
  | t :: ts, hts, seq, starred => by
    obtain ⟨r, starred₁, hfeed₁, hr⟩ := hts t List.mem_cons_self seq [] starred
    obtain ⟨rs, starred₂, hfeed₂, hrs⟩ :=
      feeds_tokens (fun u hu => hts u (List.mem_cons_of_mem _ hu)) (r :: seq) starred₁
    refine ⟨r :: rs, starred₂, ?_, .cons hr hrs⟩
    rw [List.flatMap_cons, feeds_append, hfeed₁, Option.bind_some, hfeed₂]
    simp

theorem forall₂_lang {rs : List (Regex Char)}
    (h : List.Forall₂ (fun t r => ∀ w, w ∈ Regex.lang r ↔ Token.Lang t w) ts rs) :
    ∀ {pieces : List (List Char)}, List.Forall₂ (fun r u => u ∈ Regex.lang r) rs pieces ↔
      List.Forall₂ Token.Lang ts pieces := by
  induction h with
  | nil => exact fun {pieces} => ⟨fun h => by cases h; exact .nil, fun h => by cases h; exact .nil⟩
  | cons hr _ ih =>
    intro pieces
    cases pieces with
    | nil => exact ⟨nofun, nofun⟩
    | cons u pieces => rw [List.forall₂_cons, List.forall₂_cons, hr u, ih]

/-- The whole text compiles, and accepts what falls into pieces. -/
theorem compile_of_tokens (hts : ∀ t ∈ ts, Reads t.text t.Lang) :
    ∃ re, Re2.compile ("\\A".toList ++ ts.flatMap Token.text ++ "\\z".toList) = some re ∧
      ∀ w, re.accepts w = true ↔ ∃ pieces, List.Forall₂ Token.Lang ts pieces ∧ pieces.flatten = w := by
  obtain ⟨rs, starred, hfeed, hrs⟩ := feeds_tokens hts [] false
  refine ⟨.seq rs, ?_, fun w => ?_⟩
  · have hstart : feeds {} "\\A".toList = some ⟨.plain, [[]], false⟩ := rfl
    have hend : feeds ⟨.plain, [rs.reverse], starred⟩ "\\z".toList
        = some ⟨.done, [rs.reverse], starred⟩ := rfl
    rw [Re2.compile, feeds_append, feeds_append, hstart, Option.bind_some, hfeed, Option.bind_some,
      List.append_nil, hend]
    simp
  · rw [Regex.accepts_iff, Regex.mem_seq]
    exact exists_congr fun pieces => and_congr_left fun _ => forall₂_lang hrs

/-- The encoding of a text. -/
def utf8 (text : List Char) : List UInt8 := text.flatMap String.utf8EncodeChar

/-- What compiling a pattern comes to: its characters are those of the pattern, the grammar reads
them, and for any such reading the literal prefix is the leading literals and the names that match
are those that can be cut along the tokens. -/
theorem compile_spec {pattern : ByteArray} {p : Pattern} (h : compile pattern = .ok p) :
    pattern.data.toList = utf8 p.src ∧ ∃ ts, Tokens true p.src ts ∧ p.literalPrefix = lead ts ∧
      ∀ w, p.matches w = true ↔
        ∃ pieces, List.Forall₂ Token.Lang ts pieces ∧ pieces.flatten = w := by
  unfold compile at h
  split_ifs at h with h1 h2
  rcases hs : String.fromUTF8? pattern with _ | s
  · rw [hs] at h
    cases h
  rw [hs] at h
  dsimp only at h
  split_ifs at h with h3
  rcases hl : loop s.toList 0 { re := "\\A".toList } with e | b
  · rw [hl] at h
    cases h
  rw [hl] at h
  dsimp only at h
  obtain ⟨ts, hts⟩ := tokens_of_loop _ _ _ _ le_rfl hl
  obtain ⟨b', hb', hbuilt⟩ := loop_of_tokens hts _ rfl
  obtain rfl : b = b' := Except.ok.inj (hl.symm.trans hb')
  obtain ⟨re, hre, hmatch⟩ := compile_of_tokens (reads_of_tokens hts)
  have hcompile : Re2.compile (b.re ++ "\\z".toList) = some re := by rw [hbuilt.re, hre]
  rw [hcompile] at h
  cases h
  refine ⟨?_, ts, hts, by simp [hbuilt.literalPrefix], hmatch⟩
  have hbytes : pattern = s.toByteArray := by
    unfold String.fromUTF8? at hs
    split_ifs at hs
    cases hs
    rfl
  rw [hbytes, ← String.utf8Encode_toList]
  simp [List.utf8Encode, utf8]

def control (c : Char) : Bool := c.val < 0x20 || c.val == 0x7f

theorem lang_iff_matches {w : List Char} (hw : '\n' ∉ w) : ∀ t : Token, t.Lang w ↔ t.Matches w
  | .lit _ | .any | .star | .cls _ _ | .segs => Iff.rfl
  | .rest => iff_of_true hw trivial

theorem forall₂_matches {pieces : List (List Char)} (h : ∀ u ∈ pieces, '\n' ∉ u) :
    List.Forall₂ Token.Lang ts pieces ↔ List.Forall₂ Token.Matches ts pieces := by
  induction pieces generalizing ts with
  | nil => rw [List.forall₂_nil_right_iff, List.forall₂_nil_right_iff]
  | cons u pieces ih =>
    cases ts with
    | nil => exact ⟨nofun, nofun⟩
    | cons t ts =>
      rw [List.forall₂_cons, List.forall₂_cons, lang_iff_matches (h u List.mem_cons_self),
        ih fun x hx => h x (List.mem_cons_of_mem _ hx)]

/-- A pattern that compiles is a text with one reading as tokens, and a name without control
characters matches it exactly where the name can be cut into pieces that match the tokens. -/
theorem matches_iff_cut (pattern : ByteArray) (p : Pattern) (h : compile pattern = .ok p) :
    pattern.data.toList = utf8 p.src ∧ ∃ ts, Tokens true p.src ts ∧
      (∀ ts', Tokens true p.src ts' → ts' = ts) ∧
      ∀ name : List Char, (∀ c ∈ name, control c = false) →
        (p.matches name = true ↔ Cut ts name) := by
  obtain ⟨hsrc, ts, hts, -, hmatch⟩ := compile_spec h
  refine ⟨hsrc, ts, hts, fun ts' hts' => hts'.unique hts, fun name hname => ?_⟩
  have hnl : '\n' ∉ name := fun hmem => Bool.noConfusion (hname '\n' hmem)
  rw [hmatch, Cut]
  refine exists_congr fun pieces => and_congr_left fun hflat => forall₂_matches fun u hu hmem => ?_
  exact hnl (hflat ▸ List.mem_flatten.2 ⟨u, hu, hmem⟩)

/-- A pattern with parts of most kinds. -/
def sample : ByteArray := "a/**/[!b-d]?".toUTF8

/-- What holds of the pattern that `bytes` compiles to; nothing where they do not. -/
def compiles (bytes : ByteArray) (f : Pattern → Bool) : Bool :=
  match compile bytes with
  | .error _ => false
  | .ok p => f p

theorem exists_compiled (bytes : ByteArray) {f : Pattern → Bool} (h : compiles bytes f = true) :
    ∃ p, compile bytes = .ok p ∧ f p = true := by
  unfold compiles at h
  split at h
  · cases h
  · exact ⟨_, ‹_›, h⟩

theorem matches_iff_cut_sample :
    ∃ p ts, compile sample = .ok p ∧ Tokens true p.src ts ∧ Cut ts "a/x/y/zé".toList ∧
      ¬ Cut ts "a/cc".toList := by
  obtain ⟨p, hp, hm⟩ := exists_compiled sample
    (f := fun p => p.matches "a/x/y/zé".toList && !p.matches "a/cc".toList) (by decide +kernel)
  obtain ⟨-, ts, hts, -, hcut⟩ := matches_iff_cut sample p hp
  simp only [Bool.and_eq_true, Bool.not_eq_true'] at hm
  have hplain : ∀ name : List Char, (name.all fun c => control c = false) = true →
      ∀ c ∈ name, control c = false :=
    fun name h c hc => of_decide_eq_true (List.all_eq_true.1 h c hc)
  refine ⟨p, ts, hp, hts, (hcut _ (hplain _ (by decide))).1 hm.1, fun h => ?_⟩
  rw [(hcut _ (hplain _ (by decide))).2 h] at hm
  exact Bool.noConfusion hm.2

end Dstore.Refglob

import Dstore.Lib.Byte

/-!
# Regular expressions over predicates

An atom is a predicate on characters. `Regex.lang` is the meaning, in the languages of Mathlib;
`Regex.accepts` decides it by derivatives.
-/

/-- Regular expressions over a type of letters. -/
inductive Regex (α : Type*)
  | zero
  | one
  | atom (p : α → Bool)
  | plus (r s : Regex α)
  | cat (r s : Regex α)
  | star (r : Regex α)

namespace Regex

variable {α : Type*} {r s : Regex α} {a : α} {w : List α}

/-- The words an expression stands for. -/
def lang : Regex α → Language α
  | zero => 0
  | one => 1
  | atom p => {w | ∃ a, p a = true ∧ w = [a]}
  | plus r s => r.lang + s.lang
  | cat r s => r.lang * s.lang
  | star r => KStar.kstar r.lang

/-- The empty word is one of them. -/
def nullable : Regex α → Bool
  | zero => false
  | one => true
  | atom _ => false
  | plus r s => r.nullable || s.nullable
  | cat r s => r.nullable && s.nullable
  | star _ => true

/-- What remains of the words that begin with this letter. -/
def deriv (a : α) : Regex α → Regex α
  | zero => zero
  | one => zero
  | atom p => if p a then one else zero
  | plus r s => plus (r.deriv a) (s.deriv a)
  | cat r s => if r.nullable then plus (cat (r.deriv a) s) (s.deriv a) else cat (r.deriv a) s
  | star r => cat (r.deriv a) (star r)

/-- The word belongs to the expression, by derivatives. -/
def accepts (r : Regex α) : List α → Bool
  | [] => r.nullable
  | a :: w => (r.deriv a).accepts w

theorem mem_atom {p : α → Bool} : w ∈ (atom p).lang ↔ ∃ a, p a = true ∧ w = [a] := Iff.rfl

theorem nullable_iff : ∀ {r : Regex α}, r.nullable = true ↔ [] ∈ r.lang
  | zero => by simp [nullable, lang]
  | one => by simp [nullable, lang]
  | atom p => by simp [nullable, mem_atom]
  | plus r s => by simp [nullable, lang, nullable_iff, Language.mem_add]
  | cat r s => by simp [nullable, lang, nullable_iff, Language.mem_mul]
  | star r => by simp [nullable, lang, Language.nil_mem_kstar]

/-- A word of a product that starts with `a` takes it from the first factor, or from the second
where the first matches the empty word. -/
theorem cons_mem_mul {l m : Language α} :
    a :: w ∈ l * m ↔ (∃ u v, a :: u ∈ l ∧ v ∈ m ∧ u ++ v = w) ∨ [] ∈ l ∧ a :: w ∈ m := by
  rw [Language.mem_mul]
  constructor
  · rintro ⟨u, hu, v, hv, huv⟩
    cases u with
    | nil => exact .inr ⟨hu, by rwa [← huv]⟩
    | cons b u =>
      rw [List.cons_append, List.cons.injEq] at huv
      exact .inl ⟨u, v, huv.1 ▸ hu, hv, huv.2⟩
  · rintro (⟨u, v, hu, hv, rfl⟩ | ⟨hnil, hw⟩)
    · exact ⟨a :: u, hu, v, hv, rfl⟩
    · exact ⟨[], hnil, a :: w, hw, rfl⟩

theorem cons_mem_kstar {l : Language α} :
    a :: w ∈ KStar.kstar l ↔ ∃ u v, a :: u ∈ l ∧ v ∈ KStar.kstar l ∧ u ++ v = w := by
  constructor
  · intro h
    obtain ⟨L, hL, hl⟩ := Language.mem_kstar_iff_exists_nonempty.1 h
    cases L with
    | nil => cases hL
    | cons x L =>
      obtain ⟨hx, hne⟩ := hl x List.mem_cons_self
      cases x with
      | nil => exact absurd rfl hne
      | cons b u =>
        rw [List.flatten_cons, List.cons_append, List.cons.injEq] at hL
        refine ⟨u, L.flatten, hL.1 ▸ hx, ?_, hL.2.symm⟩
        exact Language.mem_kstar.2 ⟨L, rfl, fun y hy => (hl y (List.mem_cons_of_mem _ hy)).1⟩
  · rintro ⟨u, v, hu, hv, rfl⟩
    obtain ⟨L, rfl, hL⟩ := Language.mem_kstar.1 hv
    exact Language.mem_kstar.2 ⟨(a :: u) :: L, rfl, List.forall_mem_cons.2 ⟨hu, hL⟩⟩

/-- Derivatives mean what they should. -/
theorem mem_deriv : ∀ {r : Regex α} {w : List α}, w ∈ (r.deriv a).lang ↔ a :: w ∈ r.lang
  | zero, w => by simp [deriv, lang]
  | one, w => by simp [deriv, lang]
  | atom p, w => by
    rw [mem_atom, deriv]
    constructor
    · split_ifs with h
      · intro hw
        exact ⟨a, h, by rw [(Language.mem_one _).1 hw]⟩
      · exact fun hw => absurd hw (Language.notMem_zero _)
    · rintro ⟨b, hb, hw⟩
      rw [List.cons.injEq] at hw
      rw [hw.1, if_pos hb, hw.2]
      exact (Language.mem_one _).2 rfl
  | plus r s, w => by simp [deriv, lang, Language.mem_add, mem_deriv]
  | cat r s, w => by
    have hcat : w ∈ (cat (r.deriv a) s).lang ↔ ∃ u v, a :: u ∈ r.lang ∧ v ∈ s.lang ∧ u ++ v = w := by
      simp only [lang, Language.mem_mul, mem_deriv]
      exact ⟨fun ⟨u, hu, v, hv, h⟩ => ⟨u, v, hu, hv, h⟩, fun ⟨u, v, hu, hv, h⟩ => ⟨u, hu, v, hv, h⟩⟩
    rw [deriv]
    split_ifs with h
    · rw [lang, Language.mem_add, hcat, mem_deriv, lang, cons_mem_mul, ← nullable_iff]
      simp only [h, true_and]
    · rw [hcat, lang, cons_mem_mul, ← nullable_iff]
      simp only [h, Bool.false_eq_true, false_and, or_false]
  | star r, w => by
    rw [deriv, lang, lang, cons_mem_kstar, Language.mem_mul]
    simp only [mem_deriv]
    exact ⟨fun ⟨u, hu, v, hv, h⟩ => ⟨u, v, hu, hv, h⟩, fun ⟨u, v, hu, hv, h⟩ => ⟨u, hu, v, hv, h⟩⟩

theorem accepts_iff : ∀ {w : List α} {r : Regex α}, r.accepts w = true ↔ w ∈ r.lang
  | [], _ => nullable_iff
  | a :: _, r => (accepts_iff (r := r.deriv a)).trans mem_deriv

theorem mem_star_atom {p : α → Bool} : w ∈ (star (atom p)).lang ↔ ∀ a ∈ w, p a = true := by
  rw [lang, Language.mem_kstar]
  constructor
  · rintro ⟨L, rfl, hL⟩ a ha
    obtain ⟨u, hu, ha⟩ := List.mem_flatten.1 ha
    obtain ⟨b, hb, rfl⟩ := mem_atom.1 (hL u hu)
    rwa [List.mem_singleton.1 ha]
  · intro h
    refine ⟨w.map fun a => [a], (List.flatMap_singleton' w).symm, fun u hu => ?_⟩
    obtain ⟨a, ha, rfl⟩ := List.mem_map.1 hu
    exact ⟨a, h a ha, rfl⟩

/-- One expression after the other. -/
def seq (rs : List (Regex α)) : Regex α := rs.foldr cat one

/-- A word of a sequence, cut into its pieces. -/
theorem mem_seq : ∀ {rs : List (Regex α)} {w : List α}, w ∈ (seq rs).lang ↔
    ∃ pieces, List.Forall₂ (fun r u => u ∈ r.lang) rs pieces ∧ pieces.flatten = w
  | [], w => by
    rw [seq, List.foldr_nil, lang, Language.mem_one]
    constructor
    · rintro rfl
      exact ⟨[], .nil, rfl⟩
    · rintro ⟨pieces, hp, rfl⟩
      cases hp
      rfl
  | r :: rs, w => by
    change w ∈ r.lang * (seq rs).lang ↔ _
    rw [Language.mem_mul]
    constructor
    · rintro ⟨u, hu, v, hv, rfl⟩
      obtain ⟨pieces, hp, rfl⟩ := mem_seq.1 hv
      exact ⟨u :: pieces, .cons hu hp, rfl⟩
    · rintro ⟨pieces, hp, rfl⟩
      cases hp with
      | cons hu hp => exact ⟨_, hu, _, mem_seq.2 ⟨_, hp, rfl⟩, rfl⟩

end Regex

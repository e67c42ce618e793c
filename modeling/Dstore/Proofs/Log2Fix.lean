import Dstore.Lib.FixedLog
import Dstore.Proofs.Placement

/-!
# `Log2Fix` is the floor of the logarithm, or one less

The words of `Log2Fix` are the squarings of a mantissa with 63 bits behind the point. Where
`x^(2^32)` lies above a power of two by no more than the cuts may come to, the result may be the
integer before.
-/

namespace Dstore.Placement

open FixedLog

theorem toNat_one_shiftLeft {n : ℕ} (hn : n ≤ 63) :
    ((1 : UInt64) <<< UInt64.ofNat n).toNat = 2 ^ n := by
  rw [UInt64.toNat_shiftLeft, UInt64.toNat_ofNat', Nat.mod_eq_of_lt (by omega : n < 2 ^ 64),
    Nat.mod_eq_of_lt (by omega : n < 64), UInt64.toNat_one, Nat.one_shiftLeft]
  exact Nat.mod_eq_of_lt (Nat.pow_lt_pow_right (by norm_num) (by omega))

theorem or_eq_add {a b : ℕ} (n : ℕ) (hb : b < 2 ^ n) : a * 2 ^ n ||| b = a * 2 ^ n + b := by
  rw [mul_comm, Nat.two_pow_add_eq_or_of_lt hb]

theorem squaring_eq {m f : UInt64} {j b : ℕ} (hj : 1 ≤ j) (hj' : j ≤ 32)
    (hf : f.toNat = b * 2 ^ (33 - j)) :
    (squaring (m, f) j).1.toNat = (square 63 (m.toNat, b)).1 ∧
      (squaring (m, f) j).2.toNat = (square 63 (m.toNat, b)).2 * 2 ^ (32 - j) := by
  obtain ⟨hhi, hlo⟩ := mul64_words m m
  generalize hw : mul64 m m = w at hhi hlo
  have hq : m.toNat * m.toNat < 2 ^ 64 * 2 ^ 64 := Nat.mul_lt_mul'' m.toNat_lt m.toNat_lt
  have hpow : (2 : ℕ) ^ (33 - j) = 2 ^ (32 - j) * 2 := by
    rw [← pow_succ, show 32 - j + 1 = 33 - j by omega]
  have hbit : (w.1 &&& ((1 : UInt64) <<< 63) ≠ 0) ↔ 2 ^ (2 * 63 + 1) ≤ m.toNat * m.toNat := by
    rw [Ne, ← UInt64.toNat_inj, UInt64.toNat_and, UInt64.toNat_zero,
      show ((1 : UInt64) <<< 63).toNat = 2 ^ 63 from rfl, Nat.and_two_pow,
      Nat.testBit_eq_decide_div_mod_eq]
    simp only [mul_eq_zero, Bool.toNat_eq_zero, decide_eq_false_iff_not]
    omega
  unfold squaring square
  simp only [hw]
  by_cases h : 2 ^ (2 * 63 + 1) ≤ m.toNat * m.toNat
  · rw [if_pos (hbit.2 h), if_pos h]
    refine ⟨hhi, ?_⟩
    rw [UInt64.toNat_or, hf, toNat_one_shiftLeft (by omega), or_eq_add _
      (Nat.pow_lt_pow_right (by norm_num) (by omega)), hpow]
    ring
  · rw [if_neg (mt hbit.1 h), if_neg h]
    refine ⟨?_, by rw [hf, hpow]; ring⟩
    have hhi' : (w.1 <<< 1).toNat = w.1.toNat * 2 ^ 1 := by
      rw [UInt64.toNat_shiftLeft, Nat.shiftLeft_eq]
      exact Nat.mod_eq_of_lt (by simp; omega)
    have hlo' : (w.2 >>> 63).toNat = w.2.toNat / 2 ^ 63 := by
      rw [UInt64.toNat_shiftRight, Nat.shiftRight_eq_div_pow]
      rfl
    rw [UInt64.toNat_or, hhi', hlo', or_eq_add 1 (by omega)]
    omega

theorem squarings_eq (m : UInt64) : ∀ k ≤ 32,
    ((List.range' 1 k).foldl squaring (m, 0)).1.toNat = (squares 63 m.toNat k).1 ∧
      ((List.range' 1 k).foldl squaring (m, 0)).2.toNat =
        (squares 63 m.toNat k).2 * 2 ^ (32 - k)
  | 0, _ => by simp [squares]
  | k + 1, hk => by
    obtain ⟨h1, h2⟩ := squarings_eq m k (by omega)
    rw [List.range'_1_concat, List.foldl_append, List.foldl_cons, List.foldl_nil, add_comm 1 k]
    generalize (List.range' 1 k).foldl squaring (m, 0) = t at h1 h2
    rw [squares]
    have h := squaring_eq (m := t.1) (f := t.2) (by omega) hk
      (by rw [h2, show 33 - (k + 1) = 32 - k by omega])
    rwa [h1] at h

/-- The mantissa and the bits at the end of the loop. -/
def last (x : ℕ) : ℕ × ℕ := squares 63 (x * 2 ^ (63 - x.log2)) 32

theorem squares_lt (p m : ℕ) : ∀ n, (squares p m n).2 < 2 ^ n
  | 0 => by simp [squares]
  | n + 1 => by
    obtain ⟨b, hb, heq, -⟩ := square_spec p (squares p m n)
    have := squares_lt p m n
    rw [squares, heq, pow_succ]
    omega

theorem toNat_log2Fix (x : UInt64) (hx : x ≠ 0) :
    (log2Fix x hx).toNat = x.toNat.log2 * 2 ^ 32 + (last x.toNat).2 := by
  have hne : x.toNat ≠ 0 := fun h => hx (UInt64.toNat_inj.1 h)
  have hi : x.log2.toNat = x.toNat.log2 := rfl
  have hlog : x.toNat.log2 < 64 := (Nat.log2_lt hne).2 x.toNat_lt
  have hm : (x <<< (63 - x.log2)).toNat = x.toNat * 2 ^ (63 - x.toNat.log2) := by
    have hle : x.log2 ≤ 63 := UInt64.le_iff_toNat_le.2 (by rw [hi]; exact Nat.le_of_lt_succ hlog)
    rw [UInt64.toNat_shiftLeft, UInt64.toNat_sub_of_le _ _ hle, hi, Nat.shiftLeft_eq,
      show (63 : UInt64).toNat = 63 from rfl, Nat.mod_eq_of_lt (by omega : 63 - _ < 64)]
    exact Nat.mod_eq_of_lt
      (mantissa_range (Nat.le_of_lt_succ hlog) (Nat.log2_self_le hne) Nat.lt_log2_self).2
  obtain ⟨-, hbits⟩ := squarings_eq (x <<< (63 - x.log2)) 32 le_rfl
  rw [hm, Nat.sub_self, pow_zero, mul_one] at hbits
  unfold log2Fix
  dsimp only
  rw [UInt64.toNat_or, hbits, UInt64.toNat_shiftLeft, hi, Nat.shiftLeft_eq]
  show x.toNat.log2 * 2 ^ 32 % 2 ^ 64 ||| _ = _
  rw [Nat.mod_eq_of_lt (by omega)]
  exact or_eq_add 32 (squares_lt 63 _ 32)

/-- Above every power of two up to `x^(2^32)` by more than the cuts may come to. -/
def Clear (x : ℕ) : Prop :=
  ∀ n, 2 ^ n ≤ x ^ 2 ^ 32 → 2 ^ n * (2 ^ 63 + 1) ^ 2 ^ 32 ≤ x ^ 2 ^ 32 * (2 ^ 63) ^ 2 ^ 32

/-- `Log2Fix(x)` is the floor of `log2(x)·2^32` or the integer before; it is the floor where `x` is
a power of two, or clear of those below `x^(2^32)`. -/
theorem log2Fix_floor (x : UInt64) (hx : x ≠ 0) :
    2 ^ (log2Fix x hx).toNat ≤ x.toNat ^ 2 ^ 32 ∧
      x.toNat ^ 2 ^ 32 < 2 ^ ((log2Fix x hx).toNat + 2) ∧
      (x.toNat = 2 ^ x.toNat.log2 ∨ Clear x.toNat →
        x.toNat ^ 2 ^ 32 < 2 ^ ((log2Fix x hx).toNat + 1)) := by
  have hne : x.toNat ≠ 0 := fun h => hx (UInt64.toNat_inj.1 h)
  have hip : x.toNat.log2 ≤ 63 := Nat.le_of_lt_succ ((Nat.log2_lt hne).2 x.toNat_lt)
  have hle := Nat.log2_self_le hne
  have hlt : x.toNat < 2 ^ (x.toNat.log2 + 1) := Nat.lt_log2_self
  have hs : squares 63 (x.toNat * 2 ^ (63 - x.toNat.log2)) 32 = last x.toNat := rfl
  rw [toNat_log2Fix]
  refine ⟨pow_le hip hs (range hip hs hle hlt).1, lt_pow_two hip hs hle hlt (by norm_num), ?_⟩
  rintro (hpow | hclear)
  · have hlast : last x.toNat = (2 ^ 63, 0) := by
      rw [← hs]
      nth_rewrite 1 [hpow]
      rw [← pow_add, Nat.add_sub_cancel' hip, squares_two_pow]
    simp only [hlast, add_zero]
    nth_rewrite 1 [hpow]
    rw [← pow_mul]
    exact Nat.pow_lt_pow_right one_lt_two (Nat.lt_add_one (x.toNat.log2 * 2 ^ 32))
  · by_contra hge
    exact absurd (hclear _ (not_lt.1 hge)) (not_le.2 (lt_pow_mul hip hs hle hlt))

/-- `3` is clear: at 100 bits behind the point, the last mantissa lies well between one and two. -/
theorem log2Fix_floor_three :
    Clear (3 : UInt64).toNat ∧
      (3 : UInt64).toNat ^ 2 ^ 32 < 2 ^ ((log2Fix 3 (by decide)).toNat + 1) := by
  have hclear : Clear (3 : UInt64).toNat := fun n hn =>
    clear_of_squares (i := 1) (p := 100) (by norm_num) rfl (by decide) (by decide)
      (by decide +kernel) (by decide +kernel) hn
  exact ⟨hclear, (log2Fix_floor 3 (by decide)).2.2 (.inr hclear)⟩

/-- With 100 bits behind the point the squarings find one more than `Log2Fix` does. -/
theorem log2Fix_short :
    2 ^ ((log2Fix 9223372039831820281 (by decide)).toNat + 1) ≤
      (9223372039831820281 : UInt64).toNat ^ 2 ^ 32 := by
  have hmore : (log2Fix 9223372039831820281 (by decide)).toNat + 1 = 63 * 2 ^ 32 +
      (squares 100 ((9223372039831820281 : UInt64).toNat * 2 ^ (100 - 63)) 32).2 := by
    decide +kernel
  rw [hmore]
  exact pow_le (by norm_num) rfl (by decide +kernel)

end Dstore.Placement

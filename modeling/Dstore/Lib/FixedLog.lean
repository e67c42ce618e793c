import Dstore.Lib.Byte

/-!
# Binary logarithms by squaring

The bits of a binary logarithm are found by squaring: a mantissa between one and two is squared, and
halved with a bit `1` where the square is two or more. With squares cut to `p` bits the result is
never too large (`lower`), and is short by no more than `2^n` cuts (`upper`).
-/

namespace FixedLog

variable {p n m x i : ℕ} {s : ℕ × ℕ}

/-- One bit: square the mantissa, and halve it if that is two or more. -/
def square (p : ℕ) (s : ℕ × ℕ) : ℕ × ℕ :=
  if 2 ^ (2 * p + 1) ≤ s.1 * s.1 then (s.1 * s.1 / 2 ^ (p + 1), 2 * s.2 + 1)
  else (s.1 * s.1 / 2 ^ p, 2 * s.2)

/-- The mantissa and the bits after so many squarings. -/
def squares (p m : ℕ) : ℕ → ℕ × ℕ
  | 0 => (m, 0)
  | n + 1 => square p (squares p m n)

/-- The number that mantissa and bits stand for. -/
def value (p : ℕ) (s : ℕ × ℕ) : ℚ := 2 ^ s.2 * (s.1 / 2 ^ p)

theorem value_nonneg (p : ℕ) (s : ℕ × ℕ) : 0 ≤ value p s := by
  unfold value
  positivity

theorem square_spec (p : ℕ) (s : ℕ × ℕ) : ∃ b ≤ 1, (square p s).2 = 2 * s.2 + b ∧
    (square p s).1 = s.1 * s.1 / 2 ^ (p + b) ∧
      (2 ^ p ≤ s.1 → s.1 < 2 ^ (p + 1) → 2 ^ (2 * p + b) ≤ s.1 * s.1 ∧
        s.1 * s.1 < 2 ^ (2 * p + b + 1)) := by
  unfold square
  split_ifs with h
  · refine ⟨1, le_rfl, rfl, rfl, fun _ hlt => ⟨h, ?_⟩⟩
    calc s.1 * s.1 < 2 ^ (p + 1) * 2 ^ (p + 1) := Nat.mul_lt_mul'' hlt hlt
      _ = 2 ^ (2 * p + 1 + 1) := by ring
  · refine ⟨0, by simp, rfl, rfl, fun hle _ => ⟨?_, not_le.1 h⟩⟩
    calc 2 ^ (2 * p + 0) = 2 ^ p * 2 ^ p := by ring
      _ ≤ s.1 * s.1 := Nat.mul_le_mul hle hle

theorem square_range (hle : 2 ^ p ≤ s.1) (hlt : s.1 < 2 ^ (p + 1)) :
    2 ^ p ≤ (square p s).1 ∧ (square p s).1 < 2 ^ (p + 1) := by
  obtain ⟨b, -, -, heq, hrange⟩ := square_spec p s
  obtain ⟨h1, h2⟩ := hrange hle hlt
  have hb : 0 < 2 ^ (p + b) := by positivity
  rw [heq, Nat.le_div_iff_mul_le hb, Nat.div_lt_iff_lt_mul hb]
  refine ⟨le_of_eq_of_le ?_ h1, lt_of_lt_of_eq h2 ?_⟩ <;> ring

theorem squares_range (hle : 2 ^ p ≤ m) (hlt : m < 2 ^ (p + 1)) :
    ∀ n, 2 ^ p ≤ (squares p m n).1 ∧ (squares p m n).1 < 2 ^ (p + 1)
  | 0 => ⟨hle, hlt⟩
  | n + 1 => square_range (squares_range hle hlt n).1 (squares_range hle hlt n).2

/-- A squaring with its cut does not go up. -/
theorem value_square_le (p : ℕ) (s : ℕ × ℕ) : value p (square p s) ≤ value p s ^ 2 := by
  obtain ⟨b, -, hbits, heq, -⟩ := square_spec p s
  have hcut : ((square p s).1 : ℚ) * 2 ^ (p + b) ≤ s.1 * s.1 := by
    rw [heq]
    exact_mod_cast Nat.div_mul_le_self _ _
  calc value p (square p s)
      = (2 ^ s.2) ^ 2 * (((square p s).1 : ℚ) * 2 ^ (p + b)) / (2 ^ p) ^ 2 := by
        rw [value, hbits]
        field_simp
        ring
    _ ≤ (2 ^ s.2) ^ 2 * (s.1 * s.1) / (2 ^ p) ^ 2 := by gcongr
    _ = value p s ^ 2 := by
        rw [value]
        ring

/-- The cut loses less than one unit of the last place. -/
theorem value_sq_le (hle : 2 ^ p ≤ s.1) (hlt : s.1 < 2 ^ (p + 1)) :
    value p s ^ 2 ≤ value p (square p s) * (1 + 1 / 2 ^ p) := by
  obtain ⟨b, -, hbits, heq, -⟩ := square_spec p s
  have hcut : (s.1 : ℚ) * s.1 ≤ ((square p s).1 + 1) * 2 ^ (p + b) := by
    rw [heq]
    exact_mod_cast (Nat.lt_div_mul_add (Nat.two_pow_pos (p + b))).le.trans_eq (by ring)
  have hone : ((square p s).1 : ℚ) + 1 ≤ (square p s).1 * (1 + 1 / 2 ^ p) := by
    have hm : (2 : ℚ) ^ p ≤ (square p s).1 := by exact_mod_cast (square_range hle hlt).1
    have : (1 : ℚ) ≤ (square p s).1 / 2 ^ p := by rwa [le_div_iff₀ (by positivity), one_mul]
    linarith [show ((square p s).1 : ℚ) * (1 + 1 / 2 ^ p) =
      (square p s).1 + (square p s).1 / 2 ^ p by ring]
  calc value p s ^ 2 = (2 ^ s.2) ^ 2 * ((s.1 : ℚ) * s.1) / (2 ^ p) ^ 2 := by
        rw [value]
        ring
    _ ≤ (2 ^ s.2) ^ 2 * (((square p s).1 : ℚ) * (1 + 1 / 2 ^ p) * 2 ^ (p + b)) / (2 ^ p) ^ 2 := by
        refine div_le_div_of_nonneg_right (mul_le_mul_of_nonneg_left ?_ ?_) ?_
        · exact hcut.trans (mul_le_mul_of_nonneg_right hone (by positivity))
        · positivity
        · positivity
    _ = value p (square p s) * (1 + 1 / 2 ^ p) := by
        rw [value, hbits]
        field_simp
        ring

theorem value_le (p m : ℕ) : ∀ n, value p (squares p m n) ≤ (m / 2 ^ p) ^ 2 ^ n
  | 0 => by simp [value, squares]
  | n + 1 => by
    have hpos := value_nonneg p (squares p m n)
    calc value p (squares p m (n + 1)) ≤ value p (squares p m n) ^ 2 := value_square_le p _
      _ ≤ ((m / 2 ^ p) ^ 2 ^ n) ^ 2 := by gcongr; exact value_le p m n
      _ = (m / 2 ^ p) ^ 2 ^ (n + 1) := by rw [← pow_mul, pow_succ]

/-- The loss of `n` squarings. -/
theorem le_value (hle : 2 ^ p ≤ m) (hlt : m < 2 ^ (p + 1)) : ∀ n,
    ((m : ℚ) / 2 ^ p) ^ 2 ^ n * (1 + 1 / 2 ^ p) ≤
      value p (squares p m n) * (1 + 1 / 2 ^ p) ^ 2 ^ n
  | 0 => by simp [value, squares]
  | n + 1 => by
    obtain ⟨h1, h2⟩ := squares_range hle hlt n
    have hE : (0 : ℚ) < 1 + 1 / 2 ^ p := by positivity
    have hpos := value_nonneg p (squares p m n)
    have hstep := value_sq_le h1 h2
    refine le_of_mul_le_mul_right ?_ hE
    calc ((m : ℚ) / 2 ^ p) ^ 2 ^ (n + 1) * (1 + 1 / 2 ^ p) * (1 + 1 / 2 ^ p)
        = ((m / 2 ^ p) ^ 2 ^ n * (1 + 1 / 2 ^ p)) ^ 2 := by
          rw [pow_succ, pow_mul]
          ring
      _ ≤ (value p (squares p m n) * (1 + 1 / 2 ^ p) ^ 2 ^ n) ^ 2 :=
          pow_le_pow_left₀ (by positivity) (le_value hle hlt n) 2
      _ = value p (squares p m n) ^ 2 * (1 + 1 / 2 ^ p) ^ 2 ^ (n + 1) := by
          rw [pow_succ 2 n, pow_mul]
          ring
      _ ≤ value p (squares p m (n + 1)) * (1 + 1 / 2 ^ p) * (1 + 1 / 2 ^ p) ^ 2 ^ (n + 1) := by
          gcongr
          exact hstep
      _ = value p (squares p m (n + 1)) * (1 + 1 / 2 ^ p) ^ 2 ^ (n + 1) * (1 + 1 / 2 ^ p) := by
          ring

/-- Bernoulli's inequality, without division. -/
theorem succ_pow_le (N : ℕ) : ∀ k, (N + 1) ^ k * (N + 1 - k) ≤ N ^ k * (N + 1)
  | 0 => by simp
  | k + 1 => by
    have hstep : (N + 1) * (N - k) ≤ N * (N + 1 - k) := by
      rcases le_total N k with h | h
      · simp [Nat.sub_eq_zero_of_le h]
      · obtain ⟨d, rfl⟩ := Nat.exists_eq_add_of_le h
        rw [Nat.add_sub_cancel_left, show k + d + 1 - k = d + 1 by omega]
        nlinarith
    calc (N + 1) ^ (k + 1) * (N + 1 - (k + 1)) = (N + 1) ^ k * ((N + 1) * (N - k)) := by
          rw [Nat.add_sub_add_right]
          ring
      _ ≤ (N + 1) ^ k * (N * (N + 1 - k)) := Nat.mul_le_mul_left _ hstep
      _ = N * ((N + 1) ^ k * (N + 1 - k)) := by ring
      _ ≤ N * (N ^ k * (N + 1)) := Nat.mul_le_mul_left _ (succ_pow_le N k)
      _ = N ^ (k + 1) * (N + 1) := by ring

theorem scaled (hip : i ≤ p) : ((x * 2 ^ (p - i) : ℕ) : ℚ) / 2 ^ p = x / 2 ^ i := by
  obtain ⟨d, rfl⟩ := Nat.exists_eq_add_of_le hip
  rw [Nat.add_sub_cancel_left]
  push_cast
  field_simp
  ring

section

variable (hip : i ≤ p) (hs : squares p (x * 2 ^ (p - i)) n = s)
include hip hs

theorem lower : 2 ^ (i * 2 ^ n + s.2) * s.1 ≤ x ^ 2 ^ n * 2 ^ p := by
  have h := value_le p (x * 2 ^ (p - i)) n
  rw [hs, scaled hip, value, div_pow, ← mul_div_assoc,
    div_le_div_iff₀ (by positivity) (by positivity), ← pow_mul] at h
  rw [pow_add, mul_assoc, mul_comm]
  exact_mod_cast h

variable (hle : 2 ^ i ≤ x) (hlt : x < 2 ^ (i + 1))
include hle hlt

omit hs in
theorem mantissa_range : 2 ^ p ≤ x * 2 ^ (p - i) ∧ x * 2 ^ (p - i) < 2 ^ (p + 1) := by
  have hpi : 2 ^ i * 2 ^ (p - i) = 2 ^ p := by rw [← pow_add, Nat.add_sub_cancel' hip]
  constructor
  · rw [← hpi]
    exact Nat.mul_le_mul_right _ hle
  · rw [pow_succ, ← hpi, mul_right_comm, ← pow_succ]
    exact Nat.mul_lt_mul_of_pos_right hlt (Nat.two_pow_pos _)

theorem range : 2 ^ p ≤ s.1 ∧ s.1 < 2 ^ (p + 1) := by
  obtain ⟨h1, h2⟩ := mantissa_range hip hle hlt
  exact hs ▸ squares_range h1 h2 n

/-- The result is short by no more than `2^n` cuts. -/
theorem upper : x ^ 2 ^ n * (2 ^ p) ^ 2 ^ n * (2 ^ p + 1) ≤
    2 ^ (i * 2 ^ n + s.2) * s.1 * (2 ^ p + 1) ^ 2 ^ n := by
  obtain ⟨h1, h2⟩ := mantissa_range hip hle hlt
  have h := le_value h1 h2 n
  have hE : (1 : ℚ) + 1 / 2 ^ p = (2 ^ p + 1) / 2 ^ p := by field_simp
  rw [hs, scaled hip, value, hE, div_pow, div_pow, ← pow_mul] at h
  have hc : (0 : ℚ) ≤ 2 ^ (i * 2 ^ n) * 2 ^ p * (2 ^ p) ^ 2 ^ n := by positivity
  have h := mul_le_mul_of_nonneg_right h hc
  have hleft : (x : ℚ) ^ 2 ^ n / 2 ^ (i * 2 ^ n) * ((2 ^ p + 1) / 2 ^ p) *
      (2 ^ (i * 2 ^ n) * 2 ^ p * (2 ^ p) ^ 2 ^ n) = x ^ 2 ^ n * (2 ^ p) ^ 2 ^ n * (2 ^ p + 1) := by
    field_simp
  have hright : (2 : ℚ) ^ s.2 * (s.1 / 2 ^ p) * ((2 ^ p + 1) ^ 2 ^ n / (2 ^ p) ^ 2 ^ n) *
      (2 ^ (i * 2 ^ n) * 2 ^ p * (2 ^ p) ^ 2 ^ n) =
        2 ^ (i * 2 ^ n + s.2) * s.1 * (2 ^ p + 1) ^ 2 ^ n := by
    rw [pow_add]
    field_simp
  rw [hleft, hright] at h
  exact_mod_cast h

omit hle hlt in
theorem pow_le (hs1 : 2 ^ p ≤ s.1) : 2 ^ (i * 2 ^ n + s.2) ≤ x ^ 2 ^ n :=
  Nat.le_of_mul_le_mul_right ((Nat.mul_le_mul_left _ hs1).trans (lower hip hs)) (Nat.two_pow_pos p)

theorem lt_pow_mul : x ^ 2 ^ n * (2 ^ p) ^ 2 ^ n <
    2 ^ (i * 2 ^ n + s.2 + 1) * (2 ^ p + 1) ^ 2 ^ n := by
  refine Nat.lt_of_mul_lt_mul_right (a := 2 ^ p + 1) ((upper hip hs hle hlt).trans_lt ?_)
  have hs1 : s.1 < 2 * (2 ^ p + 1) := by
    have := (range hip hs hle hlt).2
    rw [pow_succ] at this
    omega
  calc 2 ^ (i * 2 ^ n + s.2) * s.1 * (2 ^ p + 1) ^ 2 ^ n
      < 2 ^ (i * 2 ^ n + s.2) * (2 * (2 ^ p + 1)) * (2 ^ p + 1) ^ 2 ^ n := by gcongr
    _ = 2 ^ (i * 2 ^ n + s.2 + 1) * (2 ^ p + 1) ^ 2 ^ n * (2 ^ p + 1) := by ring

theorem lt_pow_two (hp : 2 * 2 ^ n ≤ 2 ^ p + 1) : x ^ 2 ^ n < 2 ^ (i * 2 ^ n + s.2 + 2) := by
  have hcut : (2 ^ p + 1) ^ 2 ^ n ≤ 2 * (2 ^ p) ^ 2 ^ n := by
    refine Nat.le_of_mul_le_mul_right (c := 2 ^ p + 1) ?_ (Nat.succ_pos _)
    calc (2 ^ p + 1) ^ 2 ^ n * (2 ^ p + 1)
        ≤ (2 ^ p + 1) ^ 2 ^ n * (2 * (2 ^ p + 1 - 2 ^ n)) := Nat.mul_le_mul_left _ (by omega)
      _ = 2 * ((2 ^ p + 1) ^ 2 ^ n * (2 ^ p + 1 - 2 ^ n)) := by ring
      _ ≤ 2 * ((2 ^ p) ^ 2 ^ n * (2 ^ p + 1)) := Nat.mul_le_mul_left _ (succ_pow_le _ _)
      _ = 2 * (2 ^ p) ^ 2 ^ n * (2 ^ p + 1) := by ring
  refine Nat.lt_of_mul_lt_mul_right (a := (2 ^ p) ^ 2 ^ n) ((lt_pow_mul hip hs hle hlt).trans_le ?_)
  calc 2 ^ (i * 2 ^ n + s.2 + 1) * (2 ^ p + 1) ^ 2 ^ n
      ≤ 2 ^ (i * 2 ^ n + s.2 + 1) * (2 * (2 ^ p) ^ 2 ^ n) := Nat.mul_le_mul_left _ hcut
    _ = 2 ^ (i * 2 ^ n + s.2 + 2) * (2 ^ p) ^ 2 ^ n := by ring

/-- At a higher precision it can be seen that `x^(2^n)` is clear of the powers of two below it by
the cuts at precision `q`. -/
theorem clear_of_squares {q k : ℕ} (h1 : s.1 < 2 * (2 ^ p + 1 - 2 ^ n))
    (h2 : 2 ^ p * (2 ^ q + 1) ≤ s.1 * (2 ^ q + 1 - 2 ^ n)) (hk : 2 ^ k ≤ x ^ 2 ^ n) :
    2 ^ k * (2 ^ q + 1) ^ 2 ^ n ≤ x ^ 2 ^ n * (2 ^ q) ^ 2 ^ n := by
  have hlower := lower hip hs
  have hupper := upper hip hs hle hlt
  have hB : 0 < 2 ^ q + 1 - 2 ^ n := by
    by_contra h0
    rw [Nat.eq_zero_of_not_pos h0, mul_zero] at h2
    exact absurd h2 (Nat.not_le.2 (by positivity))
  have hcut := succ_pow_le (2 ^ q) (2 ^ n)
  have hcut' := succ_pow_le (2 ^ p) (2 ^ n)
  -- the powers are numbers from here on
  generalize i * 2 ^ n + s.2 = l at hlower hupper
  generalize x ^ 2 ^ n = X at hlower hupper hk ⊢
  generalize 2 ^ p + 1 - 2 ^ n = A at h1 hcut'
  generalize 2 ^ q + 1 - 2 ^ n = B at h2 hB hcut
  have hup : X * A ≤ 2 ^ l * s.1 := by
    refine Nat.le_of_mul_le_mul_right (c := (2 ^ p) ^ 2 ^ n * (2 ^ p + 1)) ?_ (by positivity)
    calc X * A * ((2 ^ p) ^ 2 ^ n * (2 ^ p + 1)) = X * (2 ^ p) ^ 2 ^ n * (2 ^ p + 1) * A := by ring
      _ ≤ 2 ^ l * s.1 * (2 ^ p + 1) ^ 2 ^ n * A := Nat.mul_le_mul_right _ hupper
      _ = 2 ^ l * s.1 * ((2 ^ p + 1) ^ 2 ^ n * A) := by ring
      _ ≤ 2 ^ l * s.1 * ((2 ^ p) ^ 2 ^ n * (2 ^ p + 1)) := Nat.mul_le_mul_left _ hcut'
  have hlow : 2 ^ l * (2 ^ q + 1) ≤ X * B := by
    refine Nat.le_of_mul_le_mul_right (c := 2 ^ p) ?_ (Nat.two_pow_pos p)
    calc 2 ^ l * (2 ^ q + 1) * 2 ^ p = 2 ^ l * (2 ^ p * (2 ^ q + 1)) := by ring
      _ ≤ 2 ^ l * (s.1 * B) := Nat.mul_le_mul_left _ h2
      _ = 2 ^ l * s.1 * B := by ring
      _ ≤ X * 2 ^ p * B := Nat.mul_le_mul_right _ hlower
      _ = X * B * 2 ^ p := by ring
  have hkl : k ≤ l := by
    refine Nat.le_of_lt_succ ((Nat.pow_lt_pow_iff_right (a := 2) (by norm_num)).1 (hk.trans_lt ?_))
    refine Nat.lt_of_mul_lt_mul_right (a := A) (hup.trans_lt ?_)
    rw [Nat.pow_succ, mul_assoc]
    exact Nat.mul_lt_mul_of_pos_left h1 (by positivity)
  refine Nat.le_of_mul_le_mul_right (c := B) ?_ hB
  calc 2 ^ k * (2 ^ q + 1) ^ 2 ^ n * B ≤ 2 ^ l * ((2 ^ q + 1) ^ 2 ^ n * B) := by
        rw [mul_assoc]
        exact Nat.mul_le_mul_right _ (Nat.pow_le_pow_right (by norm_num) hkl)
    _ ≤ 2 ^ l * ((2 ^ q) ^ 2 ^ n * (2 ^ q + 1)) := Nat.mul_le_mul_left _ hcut
    _ = 2 ^ l * (2 ^ q + 1) * (2 ^ q) ^ 2 ^ n := by ring
    _ ≤ X * B * (2 ^ q) ^ 2 ^ n := Nat.mul_le_mul_right _ hlow
    _ = X * (2 ^ q) ^ 2 ^ n * B := by ring

end

theorem squares_two_pow (p : ℕ) : ∀ n, squares p (2 ^ p) n = (2 ^ p, 0)
  | 0 => rfl
  | n + 1 => by
    have hlt : ¬ 2 ^ (2 * p + 1) ≤ 2 ^ p * 2 ^ p := by
      rw [← pow_add, ← two_mul, Nat.pow_le_pow_iff_right (by norm_num)]
      omega
    rw [squares, squares_two_pow p n, square, if_neg hlt]
    exact Prod.ext (Nat.mul_div_cancel _ (Nat.two_pow_pos p)) rfl

end FixedLog

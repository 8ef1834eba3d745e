import Mathlib.Tactic

/-!
# Rounding to a scaled integer

A number `m / 10 ^ s` is represented by its mantissa `m` and its scale `s`, both of a
bounded size. A result that is not representable is rounded at the greatest scale at
which its mantissa fits.
-/

namespace CryptoCollector.Foundations

/-- The nearest integer, the even one of two. -/
def roundHalfEven (x : ℚ) : ℤ :=
  if Int.fract x < 1 / 2 then ⌊x⌋
  else if 1 / 2 < Int.fract x then ⌊x⌋ + 1
  else if ⌊x⌋ % 2 = 0 then ⌊x⌋
  else ⌊x⌋ + 1

theorem roundHalfEven_intCast (m : ℤ) : roundHalfEven m = m := by
  simp [roundHalfEven]

variable (limit maxScale : ℕ)

/-- The number has a mantissa below the limit at some scale. -/
def Scaled (x : ℚ) : Prop :=
  ∃ (m : ℤ) (s : ℕ), m.natAbs < limit ∧ s ≤ maxScale ∧ x = m / 10 ^ s

/-- The number rounded at a scale, if its mantissa fits. -/
def roundAt (x : ℚ) (s : ℕ) : Option ℚ :=
  let m := roundHalfEven (x * 10 ^ s)
  if m.natAbs < limit then some (m / 10 ^ s) else none

/-- The number rounded at the greatest scale that fits. -/
def roundScaled (x : ℚ) : Option ℚ :=
  (List.range (maxScale + 1)).reverse.findSome? (roundAt limit x)

variable {limit maxScale}

theorem roundAt_of_int {x : ℚ} {m : ℤ} {s : ℕ} (h : x * 10 ^ s = m) :
    roundAt limit x s = if m.natAbs < limit then some x else none := by
  have hpow : (10 : ℚ) ^ s ≠ 0 := by positivity
  simp only [roundAt, h, roundHalfEven_intCast]
  rw [← h, mul_div_cancel_right₀ x hpow]

/-- What is representable is not rounded. -/
theorem roundScaled_of_scaled {x : ℚ} (h : Scaled limit maxScale x) :
    roundScaled limit maxScale x = some x := by
  obtain ⟨m, s, hm, hs, rfl⟩ := h
  have hpow : (10 : ℚ) ^ s ≠ 0 := by positivity
  have hat : ∀ k, (m / 10 ^ s : ℚ) * 10 ^ (s + k) = (m * 10 ^ k : ℤ) := by
    intro k
    push_cast
    rw [pow_add]
    field_simp
  have hfits : roundAt limit (m / 10 ^ s) s = some ((m : ℚ) / 10 ^ s) := by
    have hint : (m / 10 ^ s : ℚ) * 10 ^ s = (m * 10 ^ 0 : ℤ) := hat 0
    rw [roundAt_of_int hint, if_pos (by simpa using hm)]
  unfold roundScaled
  -- the scales are tried from the greatest down to that of the number
  induction maxScale with
  | zero =>
    obtain rfl : s = 0 := by omega
    simpa using hfits
  | succ top ih =>
    rw [List.range_succ, List.reverse_append, List.reverse_singleton, List.singleton_append,
      List.findSome?_cons]
    obtain ⟨k, hk⟩ := Nat.exists_eq_add_of_le hs
    rw [hk, roundAt_of_int (hat k)]
    split_ifs with hlimit
    · rfl
    · by_cases hlast : s ≤ top
      · rw [← hk]
        exact ih hlast
      · obtain rfl : k = 0 := by omega
        exact absurd (by simpa using hm) hlimit

end CryptoCollector.Foundations

import CryptoCollector.Foundations.ScaledRounding

/-!
# Sums by a checked addition

An addition that rounds, or fails, where a sum is not representable. Added one by one
from zero, the entries of a list have their exact sum when no running total has to be
rounded.
-/

namespace CryptoCollector.Foundations

/-- An addition that is exact where the sum is representable. -/
structure CheckedAdd (K : Type*) [AddMonoid K] where
  Fits : K → Prop
  add : K → K → Option K
  add_of_fits : ∀ x y, Fits x → Fits y → Fits (x + y) → add x y = some (x + y)

namespace CheckedAdd

variable {K : Type*} [AddMonoid K] (adder : CheckedAdd K)

/-- The entries added one by one, from zero; none where an addition fails. -/
def sum (l : List K) : Option K := l.foldlM adder.add 0

/-- The totals after each entry, starting with `x`. -/
def totalsFrom (x : K) (l : List K) : List K := l.scanl (· + ·) x

/-- The entries and their running totals are representable. -/
def TotalsFit (l : List K) : Prop := (∀ y ∈ l, adder.Fits y) ∧ ∀ t ∈ totalsFrom 0 l, adder.Fits t

variable {adder}

theorem foldlM_add_of_fits {l : List K} {x : K} (hl : ∀ y ∈ l, adder.Fits y)
    (htotals : ∀ t ∈ totalsFrom x l, adder.Fits t) : l.foldlM adder.add x = some (x + l.sum) := by
  induction l generalizing x with
  | nil =>
    rw [List.sum_nil, add_zero]
    rfl
  | cons y l ih =>
    have hlater : ∀ t ∈ totalsFrom (x + y) l, adder.Fits t := by
      intro t ht
      apply htotals
      rw [totalsFrom, List.scanl_cons]
      exact List.mem_cons_of_mem _ ht
    have hx : adder.Fits x := by
      apply htotals
      rw [totalsFrom, List.scanl_cons]
      exact List.mem_cons_self
    have hnext : adder.Fits (x + y) := by
      apply hlater
      cases l with
      | nil => simp [totalsFrom]
      | cons z l => simp [totalsFrom]
    rw [List.foldlM_cons, adder.add_of_fits x y hx (hl y List.mem_cons_self) hnext]
    have hrest := ih (fun z hz => hl z (List.mem_cons_of_mem _ hz)) hlater
    rw [List.sum_cons, ← add_assoc]
    exact hrest

theorem sum_of_totalsFit {l : List K} (h : adder.TotalsFit l) : adder.sum l = some l.sum := by
  rw [sum, foldlM_add_of_fits h.1 h.2, zero_add]

end CheckedAdd

section Scaled

variable {limit maxScale s : ℕ} {x y : ℚ} {l : List ℚ}

/-- Addition that rounds to a scaled integer. -/
def scaledAdd (limit maxScale : ℕ) : CheckedAdd ℚ where
  Fits := Scaled limit maxScale
  add x y := roundScaled limit maxScale (x + y)
  add_of_fits _ _ _ _ h := roundScaled_of_scaled h

/-- A nonnegative number with at most `s` digits behind the point. -/
def AtScale (s : ℕ) (x : ℚ) : Prop := 0 ≤ x ∧ (x * 10 ^ s).den = 1

instance (s : ℕ) (x : ℚ) : Decidable (AtScale s x) := inferInstanceAs (Decidable (_ ∧ _))

theorem atScale_iff : AtScale s x ↔ ∃ n : ℕ, x = n / 10 ^ s := by
  have hpow : (0 : ℚ) < 10 ^ s := by positivity
  rw [AtScale, Rat.den_eq_one_iff]
  constructor
  · rintro ⟨hpos, hint⟩
    have hnum : 0 ≤ (x * 10 ^ s).num := Rat.num_nonneg.mpr (by positivity)
    obtain ⟨n, hn⟩ := Int.eq_ofNat_of_zero_le hnum
    refine ⟨n, (eq_div_iff hpow.ne').mpr ?_⟩
    rw [← hint, hn]
    rfl
  · rintro ⟨n, rfl⟩
    rw [div_mul_cancel₀ _ hpow.ne']
    exact ⟨by positivity, by simp⟩

theorem atScale_zero (s : ℕ) : AtScale s 0 := atScale_iff.mpr ⟨0, by simp⟩

theorem AtScale.add (hx : AtScale s x) (hy : AtScale s y) : AtScale s (x + y) := by
  obtain ⟨n, rfl⟩ := atScale_iff.mp hx
  obtain ⟨m, rfl⟩ := atScale_iff.mp hy
  exact atScale_iff.mpr ⟨n + m, by push_cast; ring⟩

theorem AtScale.sum (h : ∀ y ∈ l, AtScale s y) : AtScale s l.sum := by
  induction l with
  | nil => exact atScale_zero s
  | cons y l ih =>
    rw [List.sum_cons]
    exact (h y List.mem_cons_self).add (ih fun z hz => h z (List.mem_cons_of_mem _ hz))

theorem AtScale.scaled (hx : AtScale s x) (hs : s ≤ maxScale) (hlt : x * 10 ^ s < limit) :
    Scaled limit maxScale x := by
  obtain ⟨n, rfl⟩ := atScale_iff.mp hx
  have hpow : (10 : ℚ) ^ s ≠ 0 := by positivity
  rw [div_mul_cancel₀ _ hpow] at hlt
  exact ⟨n, s, by exact_mod_cast hlt, hs, by simp⟩

theorem totalsFrom_atScale (hx : AtScale s x) (hl : ∀ y ∈ l, AtScale s y) :
    ∀ t ∈ CheckedAdd.totalsFrom x l, AtScale s t ∧ t ≤ x + l.sum := by
  induction l generalizing x with
  | nil =>
    intro t ht
    obtain rfl : t = x := by simpa [CheckedAdd.totalsFrom] using ht
    simp [hx]
  | cons y l ih =>
    have hy := hl y List.mem_cons_self
    have hrest := fun z hz => hl z (List.mem_cons_of_mem _ hz)
    intro t ht
    rw [CheckedAdd.totalsFrom, List.scanl_cons] at ht
    rw [List.sum_cons, ← add_assoc]
    rcases List.mem_cons.mp ht with rfl | ht
    · have hsum := (AtScale.sum hrest).1
      exact ⟨hx, by linarith [hy.1]⟩
    · exact ih (hx.add hy) hrest t ht

/-- Numbers of one scale whose total is representable are added exactly. -/
theorem totalsFit_of_atScale (hs : s ≤ maxScale) (hl : ∀ y ∈ l, AtScale s y)
    (hsum : l.sum * 10 ^ s < limit) : (scaledAdd limit maxScale).TotalsFit l := by
  have hbelow : ∀ t, t ≤ l.sum → t * 10 ^ s < limit := by
    intro t ht
    exact (mul_le_mul_of_nonneg_right ht (by positivity)).trans_lt hsum
  constructor
  · intro y hy
    exact (hl y hy).scaled hs (hbelow y (List.single_le_sum (fun z hz => (hl z hz).1) y hy))
  · intro t ht
    obtain ⟨hat, hle⟩ := totalsFrom_atScale (atScale_zero s) hl t ht
    exact hat.scaled hs (hbelow t (by rwa [zero_add] at hle))

end Scaled
end CryptoCollector.Foundations

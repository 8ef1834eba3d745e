import Mathlib.Algebra.Order.Floor.Semiring
import Mathlib.Data.List.GetD
import Mathlib.Tactic

/-!
# Linear interpolation

A point between two values keeps a bound both have. A sequence continued linearly between
its indices increases when the sequence does, and so the quantiles of a sorted sample do.
-/

namespace CryptoCollector.Foundations

section Sample

variable {α : Type*} [Inhabited α] {l : List α}

/-- The entry of a sample at an index, the last one beyond the end. -/
def orderStatistic (l : List α) (i : ℕ) : α := l.getD (min i (l.length - 1)) default

theorem getElem?_orderStatistic (hne : l ≠ []) (i : ℕ) :
    l[min i (l.length - 1)]? = some (orderStatistic l i) := by
  have hpos := List.length_pos_iff.mpr hne
  have hlt : min i (l.length - 1) < l.length := by omega
  rw [orderStatistic, List.getD_eq_getElem _ _ hlt, List.getElem?_eq_getElem hlt]

theorem orderStatistic_mono [Preorder α] (h : l.Pairwise (· ≤ ·)) :
    Monotone (orderStatistic l) := by
  intro i j hij
  have hle : min i (l.length - 1) ≤ min j (l.length - 1) := min_le_min_right _ hij
  unfold orderStatistic
  rcases hle.lt_or_eq with hlt | heq
  · have hbound : min j (l.length - 1) < l.length := by omega
    rw [List.getD_eq_getElem _ _ (hlt.trans hbound), List.getD_eq_getElem _ _ hbound]
    exact List.pairwise_iff_getElem.mp h _ _ _ _ hlt
  · rw [heq]

end Sample

variable {K : Type*} [Field K] [LinearOrder K] [IsStrictOrderedRing K]

section Between

variable {a b c t : K}

theorem add_mul_sub_le (ha : a ≤ c) (hb : b ≤ c) (h0 : 0 ≤ t) (h1 : t ≤ 1) :
    a + t * (b - a) ≤ c := by
  have hrest : 0 ≤ 1 - t := sub_nonneg.mpr h1
  calc a + t * (b - a) = (1 - t) * a + t * b := by ring
    _ ≤ (1 - t) * c + t * c := by gcongr
    _ = c := by ring

theorem le_add_mul_sub (ha : c ≤ a) (hb : c ≤ b) (h0 : 0 ≤ t) (h1 : t ≤ 1) :
    c ≤ a + t * (b - a) := by
  have hrest : 0 ≤ 1 - t := sub_nonneg.mpr h1
  calc c = (1 - t) * c + t * c := by ring
    _ ≤ (1 - t) * a + t * b := by gcongr
    _ = a + t * (b - a) := by ring

end Between

section Sequence

variable [FloorRing K] {f : ℕ → K} {x y : K}

/-- A sequence continued between its indices. -/
def interpolate (f : ℕ → K) (x : K) : K := f ⌊x⌋₊ + (x - ⌊x⌋₊) * (f (⌊x⌋₊ + 1) - f ⌊x⌋₊)

theorem sub_floor_mem (hx : 0 ≤ x) : 0 ≤ x - ⌊x⌋₊ ∧ x - ⌊x⌋₊ ≤ 1 := by
  have hle : (⌊x⌋₊ : K) ≤ x := Nat.floor_le hx
  have hlt : x < ⌊x⌋₊ + 1 := Nat.lt_floor_add_one x
  constructor
  · exact sub_nonneg.mpr hle
  · linarith

theorem le_interpolate (hf : Monotone f) (hx : 0 ≤ x) : f ⌊x⌋₊ ≤ interpolate f x :=
  le_add_mul_sub le_rfl (hf (Nat.le_succ _)) (sub_floor_mem hx).1 (sub_floor_mem hx).2

theorem interpolate_le (hf : Monotone f) (hx : 0 ≤ x) : interpolate f x ≤ f (⌊x⌋₊ + 1) :=
  add_mul_sub_le (hf (Nat.le_succ _)) le_rfl (sub_floor_mem hx).1 (sub_floor_mem hx).2

/-- Between two indices the slope is that of the step, beyond an index the values are
those of later steps. -/
theorem interpolate_mono (hf : Monotone f) (hx : 0 ≤ x) (hxy : x ≤ y) :
    interpolate f x ≤ interpolate f y := by
  rcases (Nat.floor_mono hxy).lt_or_eq with hlt | heq
  · calc interpolate f x ≤ f (⌊x⌋₊ + 1) := interpolate_le hf hx
      _ ≤ f ⌊y⌋₊ := hf hlt
      _ ≤ interpolate f y := le_interpolate hf (hx.trans hxy)
  · have hstep : 0 ≤ f (⌊y⌋₊ + 1) - f ⌊y⌋₊ := sub_nonneg.mpr (hf (Nat.le_succ _))
    unfold interpolate
    rw [heq]
    gcongr

end Sequence

end CryptoCollector.Foundations

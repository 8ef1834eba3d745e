import Mathlib.Tactic

/-!
# Instants

An instant is an integer number of nanoseconds since the Unix epoch, the
resolution of the program's `DateTime<Utc>`; a duration is a difference of
instants. The bounds of the calendar are left out. The database keeps
microseconds: `storeTimestamptz` is what a bound parameter reads back as.
-/

namespace CryptoCollector.DateTime

/-- `DateTime::timestamp`: whole seconds, rounded down. -/
def timestamp (t : ℤ) : ℤ := t / 1000000000

/-- `DateTime::timestamp_millis`: whole milliseconds, rounded down. -/
def timestampMillis (t : ℤ) : ℤ := t / 1000000

/-- `DateTime::from_timestamp(secs, 0)`. -/
def fromTimestamp (secs : ℤ) : ℤ := secs * 1000000000

def fromTimestampMillis (ms : ℤ) : ℤ := ms * 1000000

def seconds (n : ℤ) : ℤ := n * 1000000000

def milliseconds (n : ℤ) : ℤ := n * 1000000

/-- `Duration::num_seconds`: whole seconds, rounded toward zero. -/
def numSeconds (d : ℤ) : ℤ := d.tdiv 1000000000

def days (n : ℤ) : ℤ := seconds (n * 86400)

@[simp] theorem timestamp_fromTimestamp (secs : ℤ) : timestamp (fromTimestamp secs) = secs := by
  simp [timestamp, fromTimestamp]

theorem fromTimestamp_timestamp_le (t : ℤ) : fromTimestamp (timestamp t) ≤ t := by
  unfold fromTimestamp timestamp
  omega

theorem timestamp_lt_iff {t secs : ℤ} : timestamp t < secs ↔ t < fromTimestamp secs := by
  unfold fromTimestamp timestamp
  omega

theorem le_timestamp_iff {t secs : ℤ} : secs ≤ timestamp t ↔ fromTimestamp secs ≤ t := by
  unfold fromTimestamp timestamp
  omega

theorem timestamp_mono {s t : ℤ} (h : s ≤ t) : timestamp s ≤ timestamp t := by
  unfold timestamp
  omega

theorem fromTimestamp_lt {a b : ℤ} : fromTimestamp a < fromTimestamp b ↔ a < b := by
  unfold fromTimestamp
  omega

theorem fromTimestamp_le {a b : ℤ} : fromTimestamp a ≤ fromTimestamp b ↔ a ≤ b := by
  unfold fromTimestamp
  omega

theorem fromTimestamp_inj {a b : ℤ} : fromTimestamp a = fromTimestamp b ↔ a = b := by
  unfold fromTimestamp
  omega

theorem numSeconds_nonpos_iff {d : ℤ} : numSeconds d ≤ 0 ↔ d < seconds 1 := by
  unfold numSeconds seconds
  rcases le_total 0 d with hd | hd
  · rw [Int.tdiv_eq_ediv_of_nonneg hd]
    omega
  · have hneg : (-d).tdiv 1000000000 = -(d.tdiv 1000000000) := Int.neg_tdiv d _
    rw [Int.tdiv_eq_ediv_of_nonneg (by omega)] at hneg
    omega

/-- 2000-01-01T00:00:00Z, the origin a `TIMESTAMPTZ` parameter is encoded from. -/
def pgEpoch : ℤ := fromTimestamp 946684800

/-- The value a `TIMESTAMPTZ` column holds after `t` is bound to it: whole
microseconds, the span from `pgEpoch` truncated toward zero. -/
def storeTimestamptz (t : ℤ) : ℤ := pgEpoch + (t - pgEpoch).tdiv 1000 * 1000

/-- An instant a `TIMESTAMPTZ` column can hold. -/
def Micros (t : ℤ) : Prop := t % 1000 = 0

instance (t : ℤ) : Decidable (Micros t) := inferInstanceAs (Decidable (_ = _))

theorem storeTimestamptz_spec (t : ℤ) :
    t < storeTimestamptz t + 1000 ∧ storeTimestamptz t < t + 1000 ∧
      Micros (storeTimestamptz t) := by
  have hdiv : (t - pgEpoch).tdiv 1000 * 1000 + (t - pgEpoch).tmod 1000 = t - pgEpoch :=
    Int.tdiv_mul_add_tmod _ _
  have hupper : (t - pgEpoch).tmod 1000 < 1000 := Int.tmod_lt_of_pos _ (by norm_num)
  have hlower : -1000 < (t - pgEpoch).tmod 1000 := Int.lt_tmod_of_pos _ (by norm_num)
  unfold Micros storeTimestamptz
  have hepoch : pgEpoch = 946684800000000000 := by rfl
  omega

theorem storeTimestamptz_micros (t : ℤ) : Micros (storeTimestamptz t) :=
  (storeTimestamptz_spec t).2.2

theorem storeTimestamptz_of_micros {t : ℤ} (h : Micros t) : storeTimestamptz t = t := by
  have ⟨hlow, hhigh, hmicros⟩ := storeTimestamptz_spec t
  unfold Micros at h hmicros
  omega

theorem le_storeTimestamptz {s t : ℤ} (hs : Micros s) (hle : s ≤ t) : s ≤ storeTimestamptz t := by
  obtain ⟨hlow, -, hmicros⟩ := storeTimestamptz_spec t
  unfold Micros at hs hmicros
  omega

/-- After 2000 a bound admits the same instants of the column before and after it is
stored. -/
theorem le_storeTimestamptz_iff {s t : ℤ} (hs : Micros s) (hepoch : pgEpoch < s) :
    s ≤ storeTimestamptz t ↔ s ≤ t := by
  refine ⟨?_, le_storeTimestamptz hs⟩
  intro hle
  unfold storeTimestamptz at hle
  have hdiv : (t - pgEpoch).tdiv 1000 * 1000 + (t - pgEpoch).tmod 1000 = t - pgEpoch :=
    Int.tdiv_mul_add_tmod _ _
  by_cases hbefore : t < pgEpoch
  · have hlower : -1000 < (t - pgEpoch).tmod 1000 := Int.lt_tmod_of_pos _ (by norm_num)
    omega
  · have hrest : 0 ≤ (t - pgEpoch).tmod 1000 := Int.tmod_nonneg _ (by omega)
    omega

theorem micros_fromTimestamp (secs : ℤ) : Micros (fromTimestamp secs) := by
  unfold Micros fromTimestamp
  omega

end CryptoCollector.DateTime

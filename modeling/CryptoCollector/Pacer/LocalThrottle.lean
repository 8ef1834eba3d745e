import CryptoCollector.Time

/-!
# The per-replica throttle

`LocalThrottle::acquire` reads and writes the instant of the last request under a
lock and sleeps after the lock is released, so further callers take the lock while
earlier ones still sleep. Concurrent callers are the instants at which they take
the lock, in lock order; each then sleeps exactly as long as it computed. A
duration is a natural number of nanoseconds, as `std::time::Duration` is.
-/

namespace CryptoCollector.Pacer

structure LocalThrottle where
  lastRequest : Option ℤ
  minGap : ℕ
  deriving DecidableEq, Repr

def LocalThrottle.new (minGapMs : UInt64) : LocalThrottle := ⟨none, minGapMs.toNat * 1000000⟩

/-- `Instant::duration_since`: zero when `prev` lies in the future. -/
def durationSince (now prev : ℤ) : ℕ := (now - prev).toNat

/-- The wait computed under the lock; the subtraction saturates. -/
def LocalThrottle.sleepFor (t : LocalThrottle) (now : ℤ) : ℕ :=
  match t.lastRequest with
  | none => 0
  | some prev => t.minGap - durationSince now prev

/-- One call that takes the lock at `now`: the throttle it leaves and the instant
the call returns. -/
def LocalThrottle.acquire (t : LocalThrottle) (now : ℤ) : LocalThrottle × ℤ :=
  if t.minGap = 0 then
    (t, now)
  else
    ({ t with lastRequest := some (now + t.sleepFor now) }, now + t.sleepFor now)

/-- The instants at which calls that take the lock at `locks` return. -/
def LocalThrottle.returns (t : LocalThrottle) : List ℤ → List ℤ
  | [] => []
  | now :: locks => (t.acquire now).2 :: (t.acquire now).1.returns locks

/-- Any two of the instants are at least `gap` apart. -/
def Spaced (gap : ℕ) (instants : List ℤ) : Prop :=
  instants.Pairwise fun a b => (gap : ℤ) ≤ |b - a|

instance (gap : ℕ) (instants : List ℤ) : Decidable (Spaced gap instants) :=
  inferInstanceAs (Decidable (instants.Pairwise _))

/-- No caller takes the lock while one before it would still be waiting its turn:
the `j`-th lock comes no sooner than `j - 1 - i` gaps after the `i`-th. -/
def LocksInTurn (gap : ℕ) (locks : List ℤ) : Prop :=
  ∀ i j (hij : i < j) (hj : j < locks.length),
    locks[i] + ((j : ℤ) - 1 - i) * gap ≤ locks[j]

section Turns
variable {gap : ℕ} {prev now : ℤ} {locks : List ℤ}

/-- The `j`-th of the locks comes no sooner than `j` gaps after `prev`. -/
def InTurnAfter (gap : ℕ) (prev : ℤ) (locks : List ℤ) : Prop :=
  ∀ j (hj : j < locks.length), prev + (j : ℤ) * gap ≤ locks[j]

theorem inTurnAfter_cons :
    InTurnAfter gap prev (now :: locks) ↔ prev ≤ now ∧ InTurnAfter gap (prev + gap) locks := by
  constructor
  · intro h
    have hfirst := h 0 (by simp)
    simp only [List.getElem_cons_zero, Nat.cast_zero, zero_mul, add_zero] at hfirst
    refine ⟨hfirst, ?_⟩
    intro j hj
    have hnext := h (j + 1) (by simpa using hj)
    simp only [List.getElem_cons_succ] at hnext
    push_cast at hnext
    linarith
  · rintro ⟨hfirst, hrest⟩ j hj
    cases j with
    | zero => simpa using hfirst
    | succ j =>
      have hnext := hrest j (by simpa using hj)
      simp only [List.getElem_cons_succ]
      push_cast
      linarith

theorem locksInTurn_cons :
    LocksInTurn gap (now :: locks) ↔ InTurnAfter gap now locks ∧ LocksInTurn gap locks := by
  constructor
  · intro h
    constructor
    · intro j hj
      have hnext := h 0 (j + 1) (by omega) (by simpa using hj)
      simp only [List.getElem_cons_zero, List.getElem_cons_succ] at hnext
      push_cast at hnext
      linarith
    · intro i j hij hj
      have hnext := h (i + 1) (j + 1) (by omega) (by simpa using hj)
      simp only [List.getElem_cons_succ] at hnext
      push_cast at hnext
      linarith
  · rintro ⟨hfirst, hrest⟩ i j hij hj
    obtain ⟨j, rfl⟩ : ∃ k, j = k + 1 := ⟨j - 1, by omega⟩
    cases i with
    | zero =>
      have hnext := hfirst j (by simpa using hj)
      simp only [List.getElem_cons_zero, List.getElem_cons_succ]
      push_cast
      linarith
    | succ i =>
      have hnext := hrest i j (by omega) (by simpa using hj)
      simp only [List.getElem_cons_succ]
      push_cast
      linarith

theorem inTurnAfter_max {a b : ℤ} :
    InTurnAfter gap (max a b) locks ↔ InTurnAfter gap a locks ∧ InTurnAfter gap b locks := by
  constructor
  · intro h
    exact ⟨fun j hj => (by linarith [h j hj, le_max_left a b]),
      fun j hj => (by linarith [h j hj, le_max_right a b])⟩
  · rintro ⟨ha, hb⟩ j hj
    rcases max_choice a b with hmax | hmax
    · simpa [hmax] using ha j hj
    · simpa [hmax] using hb j hj

end Turns

section Callers
variable {gap : ℕ}

def LocalThrottle.after (gap : ℕ) (prev : ℤ) : LocalThrottle := ⟨some prev, gap⟩

/-- Past the stored instant, a call returns a gap after it or at once. -/
theorem acquire_after_of_le (hgap : gap ≠ 0) {prev now : ℤ} (hle : prev ≤ now) :
    (LocalThrottle.after gap prev).acquire now =
      (.after gap (max now (prev + gap)), max now (prev + gap)) := by
  have hreturn : now + ((gap - (now - prev).toNat : ℕ) : ℤ) = max now (prev + gap) := by omega
  simp [LocalThrottle.acquire, LocalThrottle.after, LocalThrottle.sleepFor, durationSince, hgap,
    hreturn]

/-- Before the stored instant the elapsed time saturates at zero, and the call
returns one gap after its own lock. -/
theorem acquire_after_of_lt (hgap : gap ≠ 0) {prev now : ℤ} (hlt : now < prev) :
    (LocalThrottle.after gap prev).acquire now = (.after gap (now + gap), now + gap) := by
  have hreturn : now + ((gap - (now - prev).toNat : ℕ) : ℤ) = now + gap := by omega
  simp [LocalThrottle.acquire, LocalThrottle.after, LocalThrottle.sleepFor, durationSince, hgap,
    hreturn]

theorem Spaced.of_cons {a : ℤ} {instants : List ℤ} (h : Spaced gap (a :: instants)) :
    Spaced gap instants := (List.pairwise_cons.mp h).2

theorem le_returns_after (hgap : gap ≠ 0) {prev : ℤ} {locks : List ℤ}
    (hturn : InTurnAfter gap prev locks) (hlocks : LocksInTurn gap locks) :
    ∀ r ∈ (LocalThrottle.after gap prev).returns locks, prev + gap ≤ r := by
  induction locks generalizing prev with
  | nil => simp [LocalThrottle.returns]
  | cons now locks ih =>
    obtain ⟨hle, hprev⟩ := inTurnAfter_cons.mp hturn
    obtain ⟨hnow, hrest⟩ := locksInTurn_cons.mp hlocks
    simp only [LocalThrottle.returns, acquire_after_of_le hgap hle, List.mem_cons]
    rintro r (rfl | hr)
    · exact le_max_right _ _
    · have hlater := ih (inTurnAfter_max.mpr ⟨hnow, hprev⟩) hrest r hr
      have hmax := le_max_right now (prev + gap)
      omega

/-- After a return at `prev`, the returns are spaced from it and from each other
exactly when the locks come in turn, given that no lock is a gap before `prev`. -/
theorem spaced_after_iff (hgap : gap ≠ 0) {prev : ℤ} {locks : List ℤ}
    (hearly : ∀ now ∈ locks, prev ≤ now + gap) (hmono : locks.Pairwise (· ≤ ·)) :
    Spaced gap (prev :: (LocalThrottle.after gap prev).returns locks) ↔
      InTurnAfter gap prev locks ∧ LocksInTurn gap locks := by
  induction locks generalizing prev with
  | nil => simp [Spaced, LocalThrottle.returns, InTurnAfter, LocksInTurn]
  | cons now locks ih =>
    obtain ⟨hnow, hrest⟩ := List.pairwise_cons.mp hmono
    rw [inTurnAfter_cons, locksInTurn_cons]
    by_cases hle : prev ≤ now
    · have hnext : ∀ later ∈ locks, max now (prev + gap) ≤ later + gap := by
        intro later hlater
        have hge := hnow later hlater
        omega
      simp only [LocalThrottle.returns, acquire_after_of_le hgap hle]
      constructor
      · intro h
        obtain ⟨hturn, hlocks⟩ := (ih hnext hrest).mp h.of_cons
        obtain ⟨hturn, hprev⟩ := inTurnAfter_max.mp hturn
        exact ⟨⟨hle, hprev⟩, hturn, hlocks⟩
      · rintro ⟨⟨-, hprev⟩, hturn, hlocks⟩
        have hboth : InTurnAfter gap (max now (prev + gap)) locks :=
          inTurnAfter_max.mpr ⟨hturn, hprev⟩
        refine List.pairwise_cons.mpr ⟨?_, (ih hnext hrest).mpr ⟨hboth, hlocks⟩⟩
        intro r hr
        have hlate : prev + gap ≤ r := by
          rcases List.mem_cons.mp hr with rfl | hr
          · exact le_max_right _ _
          · have hlater := le_returns_after hgap hboth hlocks r hr
            have hmax := le_max_right now (prev + gap)
            omega
        have habs := le_abs_self (r - prev)
        omega
    · -- the elapsed time saturates: this call returns less than a gap after `prev`
      have hlt : now < prev := by omega
      constructor
      · intro h
        simp only [LocalThrottle.returns, acquire_after_of_lt hgap hlt] at h
        have hpair := (List.pairwise_cons.mp h).1 (now + gap) List.mem_cons_self
        have hback := hearly now List.mem_cons_self
        rw [abs_of_nonneg (by omega)] at hpair
        omega
      · rintro ⟨⟨hfirst, -⟩, -⟩
        omega

theorem returns_of_zero {t : LocalThrottle} (hgap : t.minGap = 0) (locks : List ℤ) :
    t.returns locks = locks := by
  induction locks with
  | nil => rfl
  | cons now locks ih => simp [LocalThrottle.returns, LocalThrottle.acquire, hgap, ih]

theorem returns_of_none (hgap : gap ≠ 0) (now : ℤ) (locks : List ℤ) :
    (LocalThrottle.mk none gap).returns (now :: locks) =
      now :: (LocalThrottle.after gap now).returns locks := by
  simp [LocalThrottle.returns, LocalThrottle.acquire, LocalThrottle.sleepFor, LocalThrottle.after,
    hgap]

end Callers

/-- The calls on a fresh throttle return spaced exactly when each takes the lock
in its turn, no sooner than every call before it has returned. -/
theorem localThrottle_spaced_iff (minGapMs : UInt64) (locks : List ℤ)
    (hmono : locks.Pairwise (· ≤ ·)) :
    Spaced (LocalThrottle.new minGapMs).minGap ((LocalThrottle.new minGapMs).returns locks) ↔
      LocksInTurn (LocalThrottle.new minGapMs).minGap locks := by
  set throttle := LocalThrottle.new minGapMs
  by_cases hgap : throttle.minGap = 0
  · rw [returns_of_zero hgap, hgap]
    constructor
    · intro _ i j hij hj
      simpa using List.pairwise_iff_getElem.mp hmono i j (hij.trans hj) hj hij
    · intro _
      exact List.pairwise_iff_forall_sublist.mpr fun _ => by simp
  · cases locks with
    | nil => simp [LocalThrottle.returns, Spaced, LocksInTurn]
    | cons now locks =>
      obtain ⟨hnow, hrest⟩ := List.pairwise_cons.mp hmono
      have hearly : ∀ later ∈ locks, now ≤ later + throttle.minGap := by
        intro later hlater
        have hge := hnow later hlater
        omega
      have hreturns := returns_of_none hgap now locks
      rw [locksInTurn_cons, ← spaced_after_iff hgap hearly hrest, ← hreturns]
      rfl

/-- Four callers, each at or after the return of the one before. -/
theorem localThrottle_spaced_four :
    LocksInTurn (LocalThrottle.new 10).minGap [0, 1000000, 10000000, 20000000] :=
  (localThrottle_spaced_iff 10 [0, 1000000, 10000000, 20000000] (by decide)).mp (by decide)

/-- Three calls within two milliseconds: the third takes the lock while the second
sleeps until 10 ms, and returns at 12 ms. -/
theorem localThrottle_third_caller :
    ([0, 1000000, 2000000] : List ℤ).Pairwise (· ≤ ·) ∧ (LocalThrottle.new 10).minGap ≠ 0 ∧
      (LocalThrottle.new 10).returns [0, 1000000, 2000000] = [0, 10000000, 12000000] ∧
      ¬ Spaced (LocalThrottle.new 10).minGap
        ((LocalThrottle.new 10).returns [0, 1000000, 2000000]) := by
  decide

end CryptoCollector.Pacer

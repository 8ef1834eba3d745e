import CryptoCollector.Alarm.FastClear
import CryptoCollector.Foundations.HeldSince

/-!
# The sustained timers

The reconciler keeps three timers: of the whole provider chain being down, of the database
not answering and of the pool being full. Over a run of sweeps each is the timer of the
history of its readings, so each condition is reported once its reading has lasted.
-/

namespace CryptoCollector.Alarm
open Foundations

/-- A condition that is reported once its reading has lasted for a threshold. -/
structure SustainedTimer where
  condition : Condition
  holds : SweepReadings → Bool
  threshold : Thresholds → ℕ
  since : Reconciler → Option ℤ

/-- `all_providers_down_since`. -/
def allProvidersDownTimer : SustainedTimer where
  condition := .allProvidersDown
  holds s := s.chainOutcome.allProvidersDown
  threshold := Thresholds.allProvidersDown
  since := Reconciler.allProvidersDownSince

/-- `db_unreachable_since`. -/
def dbUnreachableTimer : SustainedTimer where
  condition := .dbUnreachable
  holds s := !s.dbPingOk
  threshold := Thresholds.dbUnreachable
  since := Reconciler.dbUnreachableSince

/-- `pool_saturation_since`. -/
def poolSaturationTimer : SustainedTimer where
  condition := .dbPoolExhausted
  holds s := poolSaturated s.poolSize s.poolIdle s.maxConnections
  threshold := Thresholds.dbPoolSaturation
  since := Reconciler.poolSaturationSince

def sustainedTimers : List SustainedTimer :=
  [allProvidersDownTimer, dbUnreachableTimer, poolSaturationTimer]

namespace SustainedTimer

variable {timer : SustainedTimer} {r : Reconciler} {s : SweepReadings}
  {history : List SweepReadings}

def marker (timer : SustainedTimer) (r : Reconciler) (s : SweepReadings) : Option ℤ :=
  sustainedStateUpdate (timer.holds s) (timer.since r) s.now

theorem since_new (h : timer ∈ sustainedTimers) : timer.since .new = none := by
  simp only [sustainedTimers, List.mem_cons, List.not_mem_nil, or_false] at h
  rcases h with rfl | rfl | rfl <;> rfl

theorem since_sweepOnce (h : timer ∈ sustainedTimers) (r : Reconciler) (s : SweepReadings) :
    timer.since (r.sweepOnce s).1 = timer.marker r s := by
  simp only [sustainedTimers, List.mem_cons, List.not_mem_nil, or_false] at h
  rcases h with rfl | rfl | rfl <;> rfl

theorem mem_conditions (h : timer ∈ sustainedTimers) :
    timer.condition ∈ r.conditions s ↔
      sustainedActive (timer.marker r s) s.now (timer.threshold s.thresholds) = true := by
  rw [mem_conditions_iff]
  simp only [sustainedTimers, List.mem_cons, List.not_mem_nil, or_false] at h
  rcases h with rfl | rfl | rfl
  · exact Option.some_inj
  · exact Option.some_inj
  · exact Option.some_inj

/-- After a run the timer is that of the history of its readings. -/
theorem since_eq (h : timer ∈ sustainedTimers) (hrun : exec sweepStep .new history = some r) :
    timer.since r = heldSince timer.holds SweepReadings.now history := by
  induction history using List.reverseRecOn generalizing r with
  | nil =>
    obtain rfl := Option.some.inj hrun
    exact since_new h
  | append_singleton history s ih =>
    obtain ⟨before, hbefore, hlast⟩ := (exec_append_eq_some sweepStep).mp hrun
    obtain rfl : (before.sweepOnce s).1 = r := Option.some.inj hlast
    rw [since_sweepOnce h, heldSince_concat, ← ih hbefore]
    rfl

theorem marker_eq (h : timer ∈ sustainedTimers) (hrun : exec sweepStep .new history = some r) :
    timer.marker r s = heldSince timer.holds SweepReadings.now (history ++ [s]) := by
  rw [heldSince_concat, ← since_eq h hrun]
  rfl

theorem sustainedActive_iff {since : Option ℤ} {now : ℤ} {threshold : ℕ} :
    sustainedActive since now threshold = true ↔
      ∃ t, since = some t ∧ threshold ≤ saturatingDurationSince now t := by
  cases since with
  | none => simp [sustainedActive]
  | some t => simp [sustainedActive]

/-- The condition is reported when its reading has held for the threshold. -/
theorem mem_conditions_iff_heldFrom (h : timer ∈ sustainedTimers)
    (hrun : exec sweepStep .new history = some r)
    (hordered : (history ++ [s]).Pairwise fun x y => x.now ≤ y.now) :
    timer.condition ∈ r.conditions s ↔
      ∃ first, HeldFrom timer.holds (history ++ [s]) first ∧
        timer.threshold s.thresholds ≤ saturatingDurationSince s.now first.now := by
  rw [timer.mem_conditions h, sustainedActive_iff, timer.marker_eq h hrun]
  apply exists_heldSince_iff hordered
  intro t u htu hlong
  unfold saturatingDurationSince at hlong ⊢
  omega

theorem now_le (hordered : (history ++ [s]).Pairwise fun x y => x.now ≤ y.now) {x : SweepReadings}
    (hx : x ∈ history ++ [s]) : x.now ≤ s.now := by
  rcases List.mem_append.mp hx with hbefore | hlast
  · exact (List.pairwise_append.mp hordered).2.2 x hbefore s (List.mem_singleton.mpr rfl)
  · rw [List.mem_singleton.mp hlast]

end SustainedTimer

/-- At a sweep each timed condition is reported exactly when its reading has held at every
sweep from one on that lies at least the threshold back; a sweep where it does not hold
drops the timer. -/
theorem sustained_timers_exact {history : List SweepReadings} {s : SweepReadings} {r : Reconciler}
    (hrun : exec sweepStep .new history = some r)
    (hordered : (history ++ [s]).Pairwise fun x y => x.now ≤ y.now) :
    ∀ timer ∈ sustainedTimers,
      (timer.condition ∈ r.conditions s ↔
        ∃ before first after, history ++ [s] = before ++ first :: after ∧
          (∀ x ∈ first :: after, timer.holds x = true) ∧
          (timer.threshold s.thresholds : ℤ) ≤ s.now - first.now) ∧
      (timer.holds s = false → timer.since (r.sweepOnce s).1 = none) := by
  intro timer htimer
  constructor
  · rw [timer.mem_conditions_iff_heldFrom htimer hrun hordered]
    constructor
    · rintro ⟨first, hheld, hlong⟩
      have hle := SustainedTimer.now_le hordered hheld.mem
      obtain ⟨before, after, heq, hall⟩ := hheld
      unfold saturatingDurationSince at hlong
      exact ⟨before, first, after, heq, hall, by omega⟩
    · rintro ⟨before, first, after, heq, hall, hlong⟩
      refine ⟨first, ⟨before, after, heq, hall⟩, ?_⟩
      unfold saturatingDurationSince
      omega
  · intro hfalse
    rw [timer.since_sweepOnce htimer, SustainedTimer.marker, hfalse]
    rfl

def pingFailing (now : ℤ) : SweepReadings := { calmReadings now none with dbPingOk := false }

/-- Two failing sweeps a minute apart reach the threshold exactly. -/
theorem dbUnreachable_reported : ∃ r,
    exec sweepStep .new [calmReadings 0 none, pingFailing 30000000000] = some r ∧
      .dbUnreachable ∈ r.conditions (pingFailing 90000000000) := by
  have hordered : ([calmReadings 0 none, pingFailing 30000000000] ++
      [pingFailing 90000000000]).Pairwise fun x y => x.now ≤ y.now := by decide
  have htimer : dbUnreachableTimer ∈ sustainedTimers := List.mem_cons_of_mem _ List.mem_cons_self
  have hexact := sustained_timers_exact rfl hordered dbUnreachableTimer htimer
  refine ⟨_, rfl, hexact.1.mpr ?_⟩
  exact ⟨[calmReadings 0 none], pingFailing 30000000000, [pingFailing 90000000000], rfl, by decide,
    by decide⟩

end CryptoCollector.Alarm

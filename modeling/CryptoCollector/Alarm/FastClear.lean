import CryptoCollector.Alarm.Reconciler
import CryptoCollector.Foundations.Runs

/-!
# Fast-clears and missing readings

A sweep that could not read `upstream_request_pacer` skips the conditions derived
from it, and a skipped condition drops out of the desired set as a recovered one
does. Over runs of one reconciler this module compares what a sweep clears with
what it observed.
-/

namespace CryptoCollector.Alarm
open Foundations

def sweepStep (r : Reconciler) (s : SweepReadings) : Option Reconciler := some (r.sweepOnce s).1

/-- Every alarm the sweep clears at severity Critical or Error it evaluated and found
inactive. -/
def ClearsObserved (r : Reconciler) (s : SweepReadings) : Prop :=
  ∀ c, (severity c).fastClears → .clear (fingerprint c) ∈ (r.sweepOnce s).2 →
    observed r s c = some false

/-- The sweep read the pacer rows, or no Error alarm derived from them is firing. -/
def PacerReadOrQuiet (r : Reconciler) (s : SweepReadings) : Prop :=
  s.pacerRows = none → ∀ provider,
    fingerprint (.providerCreditExhausted provider) ∉ r.previouslyActive.rows.map Prod.fst ∧
      fingerprint (.missingPacerRow provider) ∉ r.previouslyActive.rows.map Prod.fst

/-- What is on record as active are conditions of the catalogue. -/
def Catalogued (r : Reconciler) : Prop :=
  ∀ a ∈ r.previouslyActive.rows, ∃ c, a = (fingerprint c, severity c)

section Steps

variable {r : Reconciler} {s : SweepReadings} {c : Condition}

theorem Catalogued.sweep (r : Reconciler) (s : SweepReadings) : Catalogued (r.sweepOnce s).1 := by
  intro a ha
  obtain ⟨c, -, rfl⟩ := List.mem_map.mp (mem_of_mem_collect ha)
  exact ⟨c, rfl⟩

theorem Catalogued.new : Catalogued Reconciler.new := fun _ ha => absurd ha List.not_mem_nil

/-- Of the conditions the fast path clears, those derived from the pacer rows are
the only ones a sweep may fail to evaluate. -/
theorem observed_eq_none_iff (hclears : (severity c).fastClears) :
    observed r s c = none ↔ s.pacerRows = none ∧
      ∃ provider, c = .providerCreditExhausted provider ∨ c = .missingPacerRow provider := by
  cases c <;> simp [observed, severity, Severity.fastClears] at hclears ⊢

theorem Catalogued.mem_rows (hknown : Catalogued r)
    (hmem : fingerprint c ∈ r.previouslyActive.rows.map Prod.fst) :
    (fingerprint c, severity c) ∈ r.previouslyActive.rows := by
  obtain ⟨a, ha, hf⟩ := List.mem_map.mp hmem
  obtain ⟨d, rfl⟩ := hknown a ha
  obtain rfl : d = c := fingerprint_injective hf
  exact ha

theorem clearsObserved_iff (hknown : Catalogued r) :
    ClearsObserved r s ↔ PacerReadOrQuiet r s := by
  constructor
  · intro hobserved hnone provider
    have hdropped : ∀ c : Condition, observed r s c = none → (severity c).fastClears →
        fingerprint c ∉ r.previouslyActive.rows.map Prod.fst := by
      intro c hc hclears hmem
      have hundesired : fingerprint c ∉ (r.desired s).map Prod.fst := by
        rw [fingerprint_mem_desired, hc]
        simp
      have hcleared := clear_mem_sweepOnce.mpr
        (Or.inr ⟨severity c, hknown.mem_rows hmem, hundesired, hclears⟩)
      have hfalse := hobserved c hclears hcleared
      rw [hc] at hfalse
      cases hfalse
    have hcredit : (severity (.providerCreditExhausted provider)).fastClears := Or.inr rfl
    have hmissing : (severity (.missingPacerRow provider)).fastClears := Or.inr rfl
    exact ⟨hdropped _ ((observed_eq_none_iff hcredit).mpr ⟨hnone, provider, Or.inl rfl⟩) hcredit,
      hdropped _ ((observed_eq_none_iff hmissing).mpr ⟨hnone, provider, Or.inr rfl⟩) hmissing⟩
  · intro hquiet c hclears hmem
    rcases clear_mem_sweepOnce.mp hmem with ⟨-, hf⟩ | ⟨sev, hrow, hundesired, -⟩
    · obtain rfl : c = .startupConfigError := fingerprint_injective hf
      rfl
    · rw [fingerprint_mem_desired] at hundesired
      have hfiring : fingerprint c ∈ r.previouslyActive.rows.map Prod.fst :=
        List.mem_map.mpr ⟨_, hrow, rfl⟩
      cases hreading : observed r s c with
      | some active =>
        cases active with
        | true => exact absurd hreading hundesired
        | false => rfl
      | none =>
        obtain ⟨hnone, provider, rfl | rfl⟩ := (observed_eq_none_iff hclears).mp hreading
        · exact absurd hfiring (hquiet hnone provider).1
        · exact absurd hfiring (hquiet hnone provider).2

end Steps

/-- In a run of sweeps from a fresh reconciler every fast-clear follows an observed
recovery exactly when no sweep misses the pacer rows while an Error alarm derived
from them is firing. -/
theorem fastClear_observed_iff (sweeps : List SweepReadings) :
    StepsMeet sweepStep ClearsObserved .new sweeps ↔
      StepsMeet sweepStep PacerReadOrQuiet .new sweeps := by
  have hstep : ∀ (C : Reconciler → SweepReadings → Prop) (r : Reconciler) (s : SweepReadings)
      (t : Reconciler), Catalogued r → C r s → sweepStep r s = some t → Catalogued t := by
    intro C r s t _ _ ht
    cases ht
    exact .sweep r s
  constructor
  · exact StepsMeet.of_invariant (hstep _) (fun r s hknown => (clearsObserved_iff hknown).mp) .new
  · exact StepsMeet.of_invariant (hstep _) (fun r s hknown => (clearsObserved_iff hknown).mpr) .new

/-- The thresholds when the environment sets none. -/
def defaultThresholds : Thresholds where
  providerUnreachable := 300000000000
  allProvidersDown := 180000000000
  dbUnreachable := 60000000000
  queueFailedThreshold := 10
  backfillFailedThreshold := 10
  workerCrashloopThreshold := 3
  workerCrashloopWindow := 300000000000
  coinsStalledThreshold := 5
  dbPoolSaturation := 60000000000
  upsertFailureStreak := 20

/-- Readings in which nothing is amiss except what the pacer rows say. -/
def calmReadings (now : ℤ) (pacerRows : Option (List PacerRow)) : SweepReadings where
  thresholds := defaultThresholds
  now := now
  providers := .new
  chainOutcome := .new
  pacerRows := pacerRows
  utcNow := now
  providerNames := ["binance"]
  dbPingOk := true
  queueFailed := some 0
  backfillFailed := some 0
  backfillStalled := some false
  workers := .new
  coinsStalled := some 0
  poolSize := 1
  poolIdle := 1
  maxConnections := 10
  upserts := .new

/-- The pacer row of `binance` is missing; the next sweep's query fails, and clears
the alarm it did not evaluate. -/
theorem fastClear_unread :
    ∃ r, exec sweepStep .new [calmReadings 0 (some [])] = some r ∧
      severity (.missingPacerRow "binance") = .error ∧
      observed r (calmReadings 30000000000 none) (.missingPacerRow "binance") = none ∧
      (r.sweepOnce (calmReadings 30000000000 none)).2 =
        [.clear (fingerprint (.missingPacerRow "binance"))] :=
  ⟨_, rfl, rfl, rfl, by decide⟩

end CryptoCollector.Alarm

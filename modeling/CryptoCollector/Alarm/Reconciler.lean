import CryptoCollector.Alarm.Catalog
import CryptoCollector.Alarm.Registry

/-!
# The reconciler sweep

A sweep reads the registry, the database and the pool, works out the conditions
active now, raises each of them and clears at once what the sweep before had
active at severity Critical or Error and this one has not. Whatever a sweep reads
is its `SweepReadings`; a reading of the database may be missing.
-/

namespace CryptoCollector.Alarm
open Foundations

structure PacerRow where
  provider : String
  cooldownUntil : Option ℤ
  creditLimit : Option ℤ
  creditsUsed : ℤ
  deriving DecidableEq, Repr

def providerUnreachableActive (snapshot : ProviderHealth) (now : ℤ) (threshold : ℕ) : Bool :=
  if snapshot.consecutiveNetworkFailures = 0 then
    false
  else
    match snapshot.lastSuccessAt with
    | none => true
    | some last => decide (saturatingDurationSince now last ≥ threshold)

def registryDesiredConditions (reg : HealthRegistry) (now : ℤ) (threshold : ℕ) : List Condition :=
  (reg.trackedProviders.filter fun provider =>
    providerUnreachableActive (reg.providerSnapshot provider) now threshold).map
      .providerUnreachable

def PacerRow.rateLimited (row : PacerRow) (now : ℤ) : Prop :=
  ∃ expiry ∈ row.cooldownUntil, expiry > now

def PacerRow.creditExhausted (row : PacerRow) : Prop :=
  ∃ limit ∈ row.creditLimit, row.creditsUsed ≥ limit

instance (row : PacerRow) (now : ℤ) : Decidable (row.rateLimited now) :=
  inferInstanceAs (Decidable (∃ expiry ∈ row.cooldownUntil, _))

instance (row : PacerRow) : Decidable row.creditExhausted :=
  inferInstanceAs (Decidable (∃ limit ∈ row.creditLimit, _))

def pacerRowsToConditions (rows : List PacerRow) (now : ℤ) : List Condition :=
  rows.flatMap fun row =>
    (if row.rateLimited now then [.providerRateLimited row.provider] else []) ++
      (if row.creditExhausted then [.providerCreditExhausted row.provider] else [])

def sustainedStateUpdate (conditionNow : Bool) (since : Option ℤ) (now : ℤ) : Option ℤ :=
  if conditionNow then some (since.getD now) else none

def sustainedActive (since : Option ℤ) (now : ℤ) (threshold : ℕ) : Bool :=
  match since with
  | some t => decide (saturatingDurationSince now t ≥ threshold)
  | none => false

def missingPacerConditions (configured : List String) (rows : List PacerRow) : List Condition :=
  (configured.filter fun name => name ∉ rows.map PacerRow.provider).map .missingPacerRow

def workerCrashloopConditions (reg : HealthRegistry) (now : ℤ) (window : ℕ) (threshold : UInt32) :
    List Condition :=
  (reg.trackedWorkers.filter fun worker =>
    reg.workerRestartCountInWindow worker now window ≥ threshold).map .workerCrashLooping

def countActive (count : ℤ) (threshold : UInt32) : Bool := count ≥ threshold.toNat

def queueFailuresActive : ℤ → UInt32 → Bool := countActive

def backfillFailedActive : ℤ → UInt32 → Bool := countActive

def coinsStalledActive : ℤ → UInt32 → Bool := countActive

def poolSaturated (size : UInt32) (numIdle : ℕ) (maxConnections : UInt32) : Bool :=
  numIdle = 0 ∧ size ≥ maxConnections

def upsertFailuresActive (streak threshold : UInt32) : Bool := streak ≥ threshold

structure SweepActions where
  toRaise : List String
  fastClear : List String
  deriving DecidableEq, Repr

/-- `HashMap<String, Severity>`, by fingerprint. -/
abbrev ActiveMap := KeyedTable (Prod.fst : String × Severity → String)

/-- The map collected from the pairs; a later pair replaces an earlier one. -/
def ActiveMap.collect (pairs : List (String × Severity)) : ActiveMap :=
  KeyedTable.upsertAll (fun _ => true) .empty pairs

/-- Critical and Error alarms qualify for the fast-clear. -/
def Severity.fastClears (sev : Severity) : Prop := sev = .critical ∨ sev = .error

instance (sev : Severity) : Decidable sev.fastClears := inferInstanceAs (Decidable (_ ∨ _))

def computeSweepActions (desired : List (String × Severity)) (previouslyActive : ActiveMap) :
    SweepActions :=
  let dropped := previouslyActive.rows.filter fun active =>
    active.1 ∉ desired.map Prod.fst ∧ active.2.fastClears
  ⟨desired.map Prod.fst, (dropped.map Prod.fst).insertionSort (· ≤ ·)⟩

/-- `Thresholds`; durations in nanoseconds. The windows and the staleness bounds
are arguments of the counts and are left out. -/
structure Thresholds where
  providerUnreachable : ℕ
  allProvidersDown : ℕ
  dbUnreachable : ℕ
  queueFailedThreshold : UInt32
  backfillFailedThreshold : UInt32
  workerCrashloopThreshold : UInt32
  workerCrashloopWindow : ℕ
  coinsStalledThreshold : UInt32
  dbPoolSaturation : ℕ
  upsertFailureStreak : UInt32
  deriving DecidableEq, Repr

/-- What one sweep reads. Other tasks write the registry in between, so each of its
four readings has a registry of its own; a query that errs reads as `none`. -/
structure SweepReadings where
  thresholds : Thresholds
  now : ℤ
  providers : HealthRegistry
  chainOutcome : HealthRegistry
  pacerRows : Option (List PacerRow)
  utcNow : ℤ
  providerNames : List String
  dbPingOk : Bool
  queueFailed : Option ℤ
  backfillFailed : Option ℤ
  backfillStalled : Option Bool
  workers : HealthRegistry
  coinsStalled : Option ℤ
  poolSize : UInt32
  poolIdle : ℕ
  maxConnections : UInt32
  upserts : HealthRegistry

structure Reconciler where
  previouslyActive : ActiveMap
  allProvidersDownSince : Option ℤ
  dbUnreachableSince : Option ℤ
  poolSaturationSince : Option ℤ
  firstSweepDone : Bool

def Reconciler.new : Reconciler := ⟨.empty, none, none, none, false⟩

inductive ClientCall where
  | raise (spec : AlarmSpec)
  | clear (fingerprint : String)
  deriving DecidableEq, Repr

namespace Reconciler

def allProvidersDownMarker (r : Reconciler) (s : SweepReadings) : Option ℤ :=
  sustainedStateUpdate s.chainOutcome.allProvidersDown r.allProvidersDownSince s.now

def dbUnreachableMarker (r : Reconciler) (s : SweepReadings) : Option ℤ :=
  sustainedStateUpdate (!s.dbPingOk) r.dbUnreachableSince s.now

def poolSaturationMarker (r : Reconciler) (s : SweepReadings) : Option ℤ :=
  sustainedStateUpdate (poolSaturated s.poolSize s.poolIdle s.maxConnections)
    r.poolSaturationSince s.now

/-- The condition, when its reading is there and says so. -/
def conditionIf (c : Condition) (active : Option Bool) : List Condition :=
  if active = some true then [c] else []

/-- The conditions of `sweep_once`, in the order they are pushed. -/
def conditions (r : Reconciler) (s : SweepReadings) : List Condition :=
  registryDesiredConditions s.providers s.now s.thresholds.providerUnreachable ++
  conditionIf .allProvidersDown
    (sustainedActive (r.allProvidersDownMarker s) s.now s.thresholds.allProvidersDown) ++
  (match s.pacerRows with
    | some rows =>
      pacerRowsToConditions rows s.utcNow ++ missingPacerConditions s.providerNames rows
    | none => []) ++
  conditionIf .dbUnreachable
    (sustainedActive (r.dbUnreachableMarker s) s.now s.thresholds.dbUnreachable) ++
  conditionIf .collectionQueueFailures
    (s.queueFailed.map fun count => queueFailuresActive count s.thresholds.queueFailedThreshold) ++
  conditionIf .backfillFailed
    (s.backfillFailed.map fun count =>
      backfillFailedActive count s.thresholds.backfillFailedThreshold) ++
  conditionIf .backfillStalled s.backfillStalled ++
  workerCrashloopConditions s.workers s.now s.thresholds.workerCrashloopWindow
    s.thresholds.workerCrashloopThreshold ++
  conditionIf .coinsStalled
    (s.coinsStalled.map fun count => coinsStalledActive count s.thresholds.coinsStalledThreshold) ++
  conditionIf .dbPoolExhausted
    (sustainedActive (r.poolSaturationMarker s) s.now s.thresholds.dbPoolSaturation) ++
  conditionIf .dbUpsertFailures
    (upsertFailuresActive s.upserts.upsertFailureStreak s.thresholds.upsertFailureStreak)

def desired (r : Reconciler) (s : SweepReadings) : List (String × Severity) :=
  (r.conditions s).map fun c => (fingerprint c, severity c)

/-- The spec a condition is raised with: the stalled coins carry their count. -/
def raisedSpec (s : SweepReadings) (c : Condition) : AlarmSpec :=
  match c, s.coinsStalled with
  | .coinsStalled, some count =>
    { toAlarmSpec c with details := [("stalled_count", toString count)] }
  | c, _ => toAlarmSpec c

/-- `sweep_once`: the calls of the alarm client in order, and the reconciler after. -/
def sweepOnce (r : Reconciler) (s : SweepReadings) : Reconciler × List ClientCall :=
  let startup := if r.firstSweepDone then [] else [.clear (fingerprint .startupConfigError)]
  let actions := computeSweepActions (r.desired s) r.previouslyActive
  (⟨ActiveMap.collect (r.desired s), r.allProvidersDownMarker s, r.dbUnreachableMarker s,
      r.poolSaturationMarker s, true⟩,
    startup ++ (r.conditions s).map (fun c => .raise (raisedSpec s c)) ++
      actions.fastClear.map .clear)

end Reconciler

/-- What a sweep made of a condition: active, inactive, or not evaluated. -/
def observed (r : Reconciler) (s : SweepReadings) : Condition → Option Bool
  | .providerUnreachable provider =>
    some (provider ∈ s.providers.trackedProviders ∧ providerUnreachableActive
      (s.providers.providerSnapshot provider) s.now s.thresholds.providerUnreachable)
  | .providerRateLimited provider =>
    s.pacerRows.map fun rows => ∃ row ∈ rows, row.provider = provider ∧ row.rateLimited s.utcNow
  | .allProvidersDown =>
    some (sustainedActive (r.allProvidersDownMarker s) s.now s.thresholds.allProvidersDown)
  | .providerCreditExhausted provider =>
    s.pacerRows.map fun rows => ∃ row ∈ rows, row.provider = provider ∧ row.creditExhausted
  | .dbUnreachable =>
    some (sustainedActive (r.dbUnreachableMarker s) s.now s.thresholds.dbUnreachable)
  | .missingPacerRow provider =>
    s.pacerRows.map fun rows =>
      provider ∈ s.providerNames ∧ ∀ row ∈ rows, row.provider ≠ provider
  | .collectionQueueFailures =>
    s.queueFailed.map fun count => queueFailuresActive count s.thresholds.queueFailedThreshold
  | .backfillFailed =>
    s.backfillFailed.map fun count =>
      backfillFailedActive count s.thresholds.backfillFailedThreshold
  | .backfillStalled => s.backfillStalled
  | .workerCrashLooping worker =>
    some (worker ∈ s.workers.trackedWorkers ∧ s.workers.workerRestartCountInWindow worker s.now
      s.thresholds.workerCrashloopWindow ≥ s.thresholds.workerCrashloopThreshold)
  | .startupConfigError => some false
  | .coinsStalled =>
    s.coinsStalled.map fun count => coinsStalledActive count s.thresholds.coinsStalledThreshold
  | .dbPoolExhausted =>
    some (sustainedActive (r.poolSaturationMarker s) s.now s.thresholds.dbPoolSaturation)
  | .dbUpsertFailures =>
    some (upsertFailuresActive s.upserts.upsertFailureStreak s.thresholds.upsertFailureStreak)

section Conditions

variable {r : Reconciler} {s : SweepReadings} {c : Condition}

theorem mem_registryDesiredConditions {reg : HealthRegistry} {now : ℤ} {threshold : ℕ} :
    c ∈ registryDesiredConditions reg now threshold ↔ ∃ provider,
      c = .providerUnreachable provider ∧ provider ∈ reg.trackedProviders ∧
        providerUnreachableActive (reg.providerSnapshot provider) now threshold = true := by
  simp only [registryDesiredConditions, List.mem_map, List.mem_filter]
  grind

theorem mem_pacerRowsToConditions {rows : List PacerRow} {now : ℤ} :
    c ∈ pacerRowsToConditions rows now ↔ ∃ row ∈ rows,
      (row.rateLimited now ∧ c = .providerRateLimited row.provider) ∨
        (row.creditExhausted ∧ c = .providerCreditExhausted row.provider) := by
  simp only [pacerRowsToConditions, List.mem_flatMap, List.mem_append]
  refine exists_congr fun row => and_congr_right fun _ => ?_
  split_ifs <;> simp_all

theorem mem_missingPacerConditions {configured : List String} {rows : List PacerRow} :
    c ∈ missingPacerConditions configured rows ↔ ∃ provider, c = .missingPacerRow provider ∧
      provider ∈ configured ∧ ∀ row ∈ rows, row.provider ≠ provider := by
  simp only [missingPacerConditions, List.mem_map, List.mem_filter]
  grind

theorem mem_workerCrashloopConditions {reg : HealthRegistry} {now : ℤ} {window : ℕ}
    {threshold : UInt32} :
    c ∈ workerCrashloopConditions reg now window threshold ↔ ∃ worker,
      c = .workerCrashLooping worker ∧ worker ∈ reg.trackedWorkers ∧
        reg.workerRestartCountInWindow worker now window ≥ threshold := by
  simp only [workerCrashloopConditions, List.mem_map, List.mem_filter]
  grind

theorem mem_conditionIf {d : Condition} {active : Option Bool} :
    c ∈ Reconciler.conditionIf d active ↔ c = d ∧ active = some true := by
  unfold Reconciler.conditionIf
  split_ifs with h <;> simp [h]

theorem mem_conditions_iff : c ∈ r.conditions s ↔ observed r s c = some true := by
  simp only [Reconciler.conditions, List.mem_append, mem_registryDesiredConditions,
    mem_conditionIf, mem_workerCrashloopConditions]
  cases hrows : s.pacerRows with
  | none => cases c <;> simp [observed, hrows]
  | some rows =>
    simp only [List.mem_append, mem_pacerRowsToConditions, mem_missingPacerConditions]
    cases c <;> simp [observed, hrows]
    all_goals exact exists_congr fun row => by grind

end Conditions

section Actions

theorem foldl_overwrite {α : Type*} (l : List α) (row : Option α) :
    l.foldl (fun row x => KeyedTable.overwrite (fun _ => true) x row) row = l.getLast?.or row := by
  induction l generalizing row with
  | nil => rfl
  | cons x l ih =>
    have hnew : KeyedTable.overwrite (fun _ => true) x row = some x := by cases row <;> rfl
    rw [List.foldl_cons, hnew, ih, List.getLast?_cons]
    cases l.getLast? <;> rfl

theorem mem_of_mem_collect {pairs : List (String × Severity)} {a : String × Severity}
    (h : a ∈ (ActiveMap.collect pairs).rows) : a ∈ pairs := by
  have hlookup := KeyedTable.mem_rows_iff.mp h
  rw [ActiveMap.collect, KeyedTable.lookup_upsertAll_fold, foldl_overwrite] at hlookup
  cases hlast : (pairs.filter fun x => x.1 = a.1).getLast? with
  | none =>
    rw [hlast] at hlookup
    cases hlookup
  | some b =>
    rw [hlast] at hlookup
    obtain rfl : b = a := Option.some.inj hlookup
    exact (List.mem_filter.mp (List.mem_of_getLast? hlast)).1

variable {r : Reconciler} {s : SweepReadings}

theorem mem_fastClear {desired : List (String × Severity)} {active : ActiveMap} {f : String} :
    f ∈ (computeSweepActions desired active).fastClear ↔
      ∃ sev, (f, sev) ∈ active.rows ∧ f ∉ desired.map Prod.fst ∧ sev.fastClears := by
  simp only [computeSweepActions, List.mem_insertionSort, List.mem_map, List.mem_filter,
    decide_eq_true_eq]
  constructor
  · rintro ⟨⟨g, sev⟩, ⟨hmem, hdropped⟩, rfl⟩
    exact ⟨sev, hmem, hdropped⟩
  · rintro ⟨sev, hmem, hdropped⟩
    exact ⟨(f, sev), ⟨hmem, hdropped⟩, rfl⟩

theorem clear_mem_sweepOnce {f : String} :
    .clear f ∈ (r.sweepOnce s).2 ↔
      (r.firstSweepDone = false ∧ f = fingerprint .startupConfigError) ∨
        ∃ sev, (f, sev) ∈ r.previouslyActive.rows ∧ f ∉ (r.desired s).map Prod.fst ∧
          sev.fastClears := by
  rw [← mem_fastClear]
  cases hfirst : r.firstSweepDone <;> simp [Reconciler.sweepOnce, hfirst]

/-- Two conditions never share a fingerprint, so a sweep desires a fingerprint
exactly when it observed its condition active. -/
theorem fingerprint_mem_desired {c : Condition} :
    fingerprint c ∈ (r.desired s).map Prod.fst ↔ observed r s c = some true := by
  rw [← mem_conditions_iff]
  simp [Reconciler.desired, fingerprint_injective.eq_iff]

end Actions
end CryptoCollector.Alarm

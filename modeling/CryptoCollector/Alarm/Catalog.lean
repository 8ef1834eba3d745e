import Mathlib.Tactic

/-!
# The alarm catalogue

The conditions the service raises, and the pure mapping of each to fingerprint,
component, severity, code and text. The fingerprint is what the Alarm Center knows
an alarm by.
-/

namespace CryptoCollector.Alarm

/-- Alarm severity; `Info` is never raised. -/
inductive Severity where
  | warning
  | error
  | critical
  deriving DecidableEq, Repr

inductive Condition where
  | providerUnreachable (provider : String)
  | providerRateLimited (provider : String)
  | allProvidersDown
  | providerCreditExhausted (provider : String)
  | dbUnreachable
  | missingPacerRow (provider : String)
  | collectionQueueFailures
  | backfillFailed
  | backfillStalled
  | workerCrashLooping (worker : String)
  | startupConfigError
  | coinsStalled
  | dbPoolExhausted
  | dbUpsertFailures
  deriving DecidableEq, Repr

/-- The `raise` payload's fields that the condition decides. -/
structure AlarmSpec where
  fingerprint : String
  component : String
  severity : Severity
  code : String
  title : String
  description : String
  labels : List (String × String)
  details : List (String × String)
  deriving DecidableEq, Repr

/-- `fingerprint`: `crypto-collector:{condition-slug}[:{provider-or-component}]`. -/
def fingerprint : Condition → String
  | .providerUnreachable provider => s!"crypto-collector:provider-unreachable:{provider}"
  | .providerRateLimited provider => s!"crypto-collector:provider-rate-limited:{provider}"
  | .allProvidersDown => "crypto-collector:all-providers-down"
  | .providerCreditExhausted provider => s!"crypto-collector:provider-credit-exhausted:{provider}"
  | .dbUnreachable => "crypto-collector:db-unreachable"
  | .missingPacerRow provider => s!"crypto-collector:missing-pacer-row:{provider}"
  | .collectionQueueFailures => "crypto-collector:collection-queue-failures"
  | .backfillFailed => "crypto-collector:backfill-failed"
  | .backfillStalled => "crypto-collector:backfill-stalled"
  | .workerCrashLooping worker => s!"crypto-collector:worker-crash-looping:{worker}"
  | .startupConfigError => "crypto-collector:startup-config-error"
  | .coinsStalled => "crypto-collector:coins-stalled"
  | .dbPoolExhausted => "crypto-collector:db-pool-exhausted"
  | .dbUpsertFailures => "crypto-collector:db-upsert-failures"

def component : Condition → String
  | .providerUnreachable _ => "providers"
  | .providerRateLimited _ => "pacer"
  | .allProvidersDown => "providers"
  | .providerCreditExhausted _ => "pacer"
  | .dbUnreachable => "db"
  | .missingPacerRow _ => "pacer"
  | .collectionQueueFailures => "collection_queue"
  | .backfillFailed => "backfill"
  | .backfillStalled => "backfill"
  | .workerCrashLooping _ => "collectors"
  | .startupConfigError => "config"
  | .coinsStalled => "live_poller"
  | .dbPoolExhausted => "db"
  | .dbUpsertFailures => "db"

def severity : Condition → Severity
  | .providerUnreachable _ => .warning
  | .providerRateLimited _ => .warning
  | .allProvidersDown => .critical
  | .providerCreditExhausted _ => .error
  | .dbUnreachable => .critical
  | .missingPacerRow _ => .error
  | .collectionQueueFailures => .warning
  | .backfillFailed => .warning
  | .backfillStalled => .warning
  | .workerCrashLooping _ => .error
  | .startupConfigError => .critical
  | .coinsStalled => .warning
  | .dbPoolExhausted => .error
  | .dbUpsertFailures => .error

def code : Condition → String
  | .providerUnreachable _ => "PROVIDER_UNREACHABLE"
  | .providerRateLimited _ => "PROVIDER_RATE_LIMITED"
  | .allProvidersDown => "ALL_PROVIDERS_DOWN"
  | .providerCreditExhausted _ => "PROVIDER_CREDIT_EXHAUSTED"
  | .dbUnreachable => "DB_UNREACHABLE"
  | .missingPacerRow _ => "MISSING_PACER_ROW"
  | .collectionQueueFailures => "COLLECTION_QUEUE_FAILURES"
  | .backfillFailed => "BACKFILL_FAILED"
  | .backfillStalled => "BACKFILL_STALLED"
  | .workerCrashLooping _ => "WORKER_CRASH_LOOPING"
  | .startupConfigError => "STARTUP_CONFIG_ERROR"
  | .coinsStalled => "COINS_STALLED"
  | .dbPoolExhausted => "DB_POOL_EXHAUSTED"
  | .dbUpsertFailures => "DB_UPSERT_FAILURES"

def titleAndDescription : Condition → String × String
  | .providerUnreachable provider =>
    (s!"Provider unreachable: {provider}",
      s!"{provider} has produced only network failures with no success for the " ++
        "sustained-unreachable threshold.")
  | .providerRateLimited provider =>
    (s!"Provider rate-limited: {provider}",
      s!"{provider}'s fleet-wide pacer cooldown is currently active.")
  | .allProvidersDown =>
    ("All providers in fallback chain failed",
      "The most recent provider chain attempt recorded a failure from every " ++
        "provider for a requested capability.")
  | .providerCreditExhausted provider =>
    (s!"Provider credit exhausted: {provider}",
      s!"{provider}'s upstream request credit budget is exhausted.")
  | .dbUnreachable =>
    ("Database unreachable",
      "The readiness DB-ping (SELECT 1) has failed for the sustained-unreachable " ++
        "threshold.")
  | .missingPacerRow provider =>
    (s!"Missing pacer row: {provider}",
      s!"{provider} is configured but has no upstream_request_pacer row.")
  | .collectionQueueFailures =>
    ("Recent collection-queue failures",
      "The windowed count of failed collection_queue rows has reached the " ++
        "configured threshold.")
  | .backfillFailed =>
    ("Recent backfill-chunk failures",
      "The windowed count of failed backfill_chunks rows has reached the " ++
        "configured threshold.")
  | .backfillStalled =>
    ("Backfill stalled",
      "Pending backfill chunks exist but none have advanced for the configured " ++
        "stall threshold.")
  | .workerCrashLooping worker =>
    (s!"Worker crash-looping: {worker}",
      s!"{worker} has restarted at least the crash-loop threshold number of " ++
        "times within the crash-loop window.")
  | .startupConfigError =>
    ("Startup configuration error",
      "build_chain failed fast at startup due to an unknown provider name.")
  | .coinsStalled =>
    ("Tracked coins not advancing",
      "The number of stale tracked coins has reached the configured threshold.")
  | .dbPoolExhausted =>
    ("Database pool exhausted",
      "The database connection pool has had zero idle connections at full size " ++
        "for the configured saturation threshold.")
  | .dbUpsertFailures =>
    ("Sustained database upsert-failure streak",
      "The consecutive database upsert-failure streak has reached the configured " ++
        "threshold.")

def toAlarmSpec (c : Condition) : AlarmSpec :=
  let (title, description) := titleAndDescription c
  ⟨fingerprint c, component c, severity c, code c, title, description, [], []⟩

def Condition.target : Condition → Option String
  | .providerUnreachable provider => some provider
  | .providerRateLimited provider => some provider
  | .providerCreditExhausted provider => some provider
  | .missingPacerRow provider => some provider
  | .workerCrashLooping worker => some worker
  | _ => none

def Condition.slug : Condition → String
  | .providerUnreachable _ => "provider-unreachable"
  | .providerRateLimited _ => "provider-rate-limited"
  | .allProvidersDown => "all-providers-down"
  | .providerCreditExhausted _ => "provider-credit-exhausted"
  | .dbUnreachable => "db-unreachable"
  | .missingPacerRow _ => "missing-pacer-row"
  | .collectionQueueFailures => "collection-queue-failures"
  | .backfillFailed => "backfill-failed"
  | .backfillStalled => "backfill-stalled"
  | .workerCrashLooping _ => "worker-crash-looping"
  | .startupConfigError => "startup-config-error"
  | .coinsStalled => "coins-stalled"
  | .dbPoolExhausted => "db-pool-exhausted"
  | .dbUpsertFailures => "db-upsert-failures"

def suffix (target : Option String) : String := target.elim "" fun t => ":" ++ t

theorem fingerprint_eq (c : Condition) :
    fingerprint c = "crypto-collector:" ++ (c.slug ++ suffix c.target) := by
  cases c with
  | providerUnreachable p | providerRateLimited p | providerCreditExhausted p
  | missingPacerRow p | workerCrashLooping p =>
    simp only [Condition.slug, Condition.target, suffix, Option.elim_some, ← String.append_assoc]
    rfl
  | allProvidersDown | dbUnreachable | collectionQueueFailures | backfillFailed
  | backfillStalled | startupConfigError | coinsStalled | dbPoolExhausted | dbUpsertFailures => rfl

theorem colon_notMem_slug (c : Condition) : ':' ∉ c.slug.toList := by
  cases c <;> simp only [Condition.slug] <;> decide

theorem takeWhile_slug (c : Condition) :
    (c.slug ++ suffix c.target).toList.takeWhile (· ≠ ':') = c.slug.toList := by
  rw [String.toList_append, List.takeWhile_append_of_pos]
  · cases htarget : c.target with
    | none => simp [suffix]
    | some t => simp [suffix, String.toList_append]
  · intro x hx
    simp only [decide_eq_true_eq]
    rintro rfl
    exact colon_notMem_slug c hx

theorem suffix_injective : Function.Injective suffix := by
  intro a b h
  cases a with
  | none =>
    cases b with
    | none => rfl
    | some t => simpa [suffix, String.toList_append] using congrArg String.toList h
  | some s =>
    cases b with
    | none => simpa [suffix, String.toList_append] using congrArg String.toList h
    | some t =>
      rw [suffix, suffix, Option.elim_some, Option.elim_some, String.append_right_inj] at h
      rw [h]

theorem eq_of_slug_target {c d : Condition} (hslug : c.slug = d.slug)
    (htarget : c.target = d.target) : c = d := by
  cases c <;> cases d <;> simp_all [Condition.slug, Condition.target]

/-- The fingerprint tells the conditions apart. -/
theorem fingerprint_injective : Function.Injective fingerprint := by
  intro c d h
  rw [fingerprint_eq, fingerprint_eq, String.append_right_inj] at h
  have hslug : c.slug = d.slug := by
    rw [← String.toList_inj, ← takeWhile_slug, ← takeWhile_slug, h]
  rw [hslug, String.append_right_inj] at h
  exact eq_of_slug_target hslug (suffix_injective h)

end CryptoCollector.Alarm

import CryptoCollector.Foundations.KeyedTable
import CryptoCollector.Providers.ChainWorld

/-!
# The health registry

The state of one process that the database does not hold: reachability of each
provider, the latest chain outcomes, restarts of the workers and the streak of
failed upserts. Every update is a lock taken, a field written and the lock
released; the instant it stamps is an argument. Counters are `u32`.
-/

namespace CryptoCollector.Alarm
open Foundations Providers

structure ProviderHealth where
  lastSuccessAt : Option ℤ
  consecutiveNetworkFailures : UInt32
  deriving DecidableEq, Repr

/-- `ProviderHealth::default`: never observed. -/
def ProviderHealth.default : ProviderHealth := ⟨none, 0⟩

structure HealthRegistry where
  providers : KeyedTable (Prod.fst : String × ProviderHealth → String)
  lastAllFailedAt : Option ℤ
  lastChainSuccessAt : Option ℤ
  workerRestarts : KeyedTable (Prod.fst : String × List ℤ → String)
  upsertFailureStreak : UInt32

/-- `Instant::saturating_duration_since`, in nanoseconds. -/
def saturatingDurationSince (now earlier : ℤ) : ℕ := (now - earlier).toNat

/-- `WORKER_RESTART_RETENTION`: a day. -/
def workerRestartRetention : ℕ := 24 * 3600 * 1000000000

def chainAllFailedNow (lastAllFailedAt lastChainSuccessAt : Option ℤ) : Bool :=
  match lastAllFailedAt, lastChainSuccessAt with
  | none, _ => false
  | some _, none => true
  | some failed, some success => decide (failed > success)

namespace HealthRegistry

def new : HealthRegistry := ⟨.empty, none, none, .empty, 0⟩

def providerSnapshot (reg : HealthRegistry) (provider : String) : ProviderHealth :=
  ((reg.providers.lookup provider).map Prod.snd).getD .default

def setProvider (reg : HealthRegistry) (provider : String) (health : ProviderHealth) :
    HealthRegistry :=
  { reg with providers := reg.providers.upsert (fun _ => true) (provider, health) }

def recordProviderSuccess (reg : HealthRegistry) (now : ℤ) (provider : String) : HealthRegistry :=
  reg.setProvider provider ⟨some now, 0⟩

def recordProviderNetworkFailure (reg : HealthRegistry) (provider : String) : HealthRegistry :=
  let entry := reg.providerSnapshot provider
  reg.setProvider provider
    { entry with consecutiveNetworkFailures := entry.consecutiveNetworkFailures + 1 }

def trackedProviders (reg : HealthRegistry) : List String := reg.providers.rows.map Prod.fst

def recordChainAllFailed (reg : HealthRegistry) (now : ℤ) : HealthRegistry :=
  { reg with lastAllFailedAt := some now }

def recordChainSuccess (reg : HealthRegistry) (now : ℤ) : HealthRegistry :=
  { reg with lastChainSuccessAt := some now }

def allProvidersDown (reg : HealthRegistry) : Bool :=
  chainAllFailedNow reg.lastAllFailedAt reg.lastChainSuccessAt

def recordWorkerRestart (reg : HealthRegistry) (now : ℤ) (worker : String) : HealthRegistry :=
  let events := ((reg.workerRestarts.lookup worker).map Prod.snd).getD [] ++ [now]
  let kept := events.filter fun t => saturatingDurationSince now t < workerRestartRetention
  { reg with workerRestarts := reg.workerRestarts.upsert (fun _ => true) (worker, kept) }

def workerRestartCountInWindow (reg : HealthRegistry) (worker : String) (now : ℤ) (window : ℕ) :
    UInt32 :=
  let events := ((reg.workerRestarts.lookup worker).map Prod.snd).getD []
  (events.countP fun t => saturatingDurationSince now t < window).toUInt32

def trackedWorkers (reg : HealthRegistry) : List String := reg.workerRestarts.rows.map Prod.fst

def recordUpsertFailure (reg : HealthRegistry) : HealthRegistry :=
  { reg with upsertFailureStreak := reg.upsertFailureStreak + 1 }

def recordUpsertSuccess (reg : HealthRegistry) : HealthRegistry :=
  { reg with upsertFailureStreak := 0 }

/-- What a poke does to the registry. -/
def record (now : ℤ) (poke : HealthPoke) (reg : HealthRegistry) : HealthRegistry :=
  match poke with
  | .providerSuccess provider => reg.recordProviderSuccess now provider
  | .providerNetworkFailure provider => reg.recordProviderNetworkFailure provider
  | .chainSuccess => reg.recordChainSuccess now
  | .chainAllFailed => reg.recordChainAllFailed now
  | .upsertSuccess => reg.recordUpsertSuccess
  | .upsertFailure => reg.recordUpsertFailure

/-- The pokes one after the other, the `k`-th at the instant `clock k`. -/
def recordAll (clock : ℕ → ℤ) : ℕ → List HealthPoke → HealthRegistry → HealthRegistry
  | _, [], reg => reg
  | k, poke :: pokes, reg => recordAll clock (k + 1) pokes (reg.record (clock k) poke)

theorem recordAll_append (clock : ℕ → ℤ) (k : ℕ) (pokes more : List HealthPoke)
    (reg : HealthRegistry) :
    recordAll clock k (pokes ++ more) reg =
      recordAll clock (k + pokes.length) more (recordAll clock k pokes reg) := by
  induction pokes generalizing k reg with
  | nil => rfl
  | cons poke pokes ih =>
    have hcount : k + 1 + pokes.length = k + (pokes.length + 1) := by omega
    simp only [List.cons_append, recordAll, ih, hcount, List.length_cons]

end HealthRegistry
end CryptoCollector.Alarm

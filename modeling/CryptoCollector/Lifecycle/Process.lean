import CryptoCollector.Collectors.RestartBackoff
import CryptoCollector.Health

/-!
# The life of a process

`main` from the moment its health server listens: it applies the migrations, retrying as long as
the database is away, checks its configuration, starts the workers, binds the API and reports
ready. On a signal the orchestrator turns readiness off, waits out the grace period and tells
everybody to stop; `main` waits for the servers, and they for what they are answering, then for
the workers up to the drain limit, and closes the pool, which waits for the connections that are
out. The steps of `main`, the orchestrator, the servers, the supervised tasks, the requests and the
probes interleave freely, each at its own reading of the clock.
-/

namespace CryptoCollector.Lifecycle
open Foundations Health Collectors

def retryInitialBackoff : ℕ := 1 * 1000000000

def retryMaxBackoff : ℕ := 30 * 1000000000

/-- Where `main` stands. It returns an error from `failed`, and nothing runs after that. -/
inductive MainPhase where
  | entering
  | migrating (backoff : ℕ)
  | retrying (backoff : ℕ) (wakesAt : ℤ)
  | aborting
  | buildingChain
  | checkingPacer
  | enqueuing
  | spawningWorkers
  | bindingApi
  | settingReady
  | servingApi
  | joining
  | draining (since : ℤ)
  | closing
  | ended
  | failed
  deriving DecidableEq, Repr

inductive Orchestrator where
  | waiting
  | grace (overAt : ℤ)
  | finished
  deriving DecidableEq, Repr

/-- The handle of `spawn_workers`, which joins the loops of the workers. -/
inductive Workers where
  | notSpawned
  | running
  | finished
  deriving DecidableEq, Repr

inductive ApiServer where
  | unbound
  | bound
  | serving
  | stopped
  deriving DecidableEq, Repr

/-- `SHUTDOWN_GRACE_SECONDS` and `SHUTDOWN_DRAIN_SECONDS`, and whether there is an
`ALARM_CENTER_URL`. -/
structure ShutdownConfig where
  grace : ℕ
  drain : ℕ
  alarmCenter : Bool

/-- The tasks that `spawn_workers` joins. -/
def ShutdownConfig.workers (config : ShutdownConfig) : List BackgroundTask :=
  [.livePoller, .collectionQueue, .backfill] ++ if config.alarmCenter then [.reconciler] else []

def ShutdownConfig.supervised (config : ShutdownConfig) : List BackgroundTask :=
  config.workers ++ [.coinQuoteRelay, .coinCandleRelay]

/-- The process: how many API requests are under way and how many connections of the pool are
out, the instants at which the migrations were applied, the workers spawned, the API bound, the
shutdown broadcast, the servers joined and the pool closed, and those at which a migration
attempt failed, newest first. -/
structure Process where
  clock : ℤ
  main : MainPhase
  orchestrator : Orchestrator
  health : HealthServer
  healthServing : Bool
  workers : Workers
  supervisors : BackgroundTask → Supervisor
  api : ApiServer
  requests : ℕ
  held : ℕ
  failures : List ℤ
  migratedAt : Option ℤ
  workersAt : Option ℤ
  boundAt : Option ℤ
  broadcastAt : Option ℤ
  joinedAt : Option ℤ
  closedAt : Option ℤ

def Process.start (now : ℤ) : Process where
  clock := now
  main := .entering
  orchestrator := .waiting
  health := .new
  healthServing := true
  workers := .notSpawned
  supervisors := fun _ => .new now
  api := .unbound
  requests := 0
  held := 0
  failures := []
  migratedAt := none
  workersAt := none
  boundAt := none
  broadcastAt := none
  joinedAt := none
  closedAt := none

inductive MainEvent where
  | enter
  | migrated
  | migrationFailed
  | wake
  | abort
  | joinHealth
  | chainBuilt
  | chainRejected
  | pacerComplete
  | pacerRejected
  | enqueued
  | workersSpawned
  | apiBound
  | bindFailed
  | setReady
  | serve
  | join
  | drained
  | drainTimedOut
  | closePool
  deriving DecidableEq, Repr

inductive ProcessEvent where
  | main (e : MainEvent)
  | signal
  | graceOver
  | task (task : BackgroundTask) (event : SupervisorEvent)
  | workersFinished
  | request
  | requestDone
  | apiStopped
  | healthStopped
  | connect
  | release
  | probe
  | probeGoesOn (i : ℕ) (pingError : Option String)
  | probeDropped (i : ℕ)
  deriving DecidableEq, Repr

namespace Process

/-- The servers are through and the orchestrator has ended. -/
def healthJoined (s : Process) : Prop := s.healthServing = false ∧ s.orchestrator = .finished

instance (s : Process) : Decidable s.healthJoined := inferInstanceAs (Decidable (_ ∧ _))

def moveMain (s : Process) (before after : MainPhase) : Option Process :=
  if s.main = before then some { s with main := after } else none

def mainStep (config : ShutdownConfig) (s : Process) : MainEvent → Option Process
  | .enter =>
    match s.main with
    | .entering =>
      some { s with
        main := if s.broadcastAt.isSome then .aborting else .migrating retryInitialBackoff }
    | _ => none
  | .migrated =>
    match s.main with
    | .migrating _ => some { s with main := .buildingChain, migratedAt := some s.clock }
    | _ => none
  | .migrationFailed =>
    match s.main with
    | .migrating backoff =>
      some { s with
        main := .retrying backoff (s.clock + backoff)
        failures := s.clock :: s.failures }
    | _ => none
  | .wake =>
    match s.main with
    | .retrying backoff wakesAt =>
      if wakesAt ≤ s.clock then
        some { s with main := .migrating (doubled retryMaxBackoff backoff) }
      else
        none
    | _ => none
  | .abort =>
    match s.main with
    | .migrating _ | .retrying _ _ =>
      if s.broadcastAt.isSome then some { s with main := .aborting } else none
    | _ => none
  | .joinHealth =>
    if s.main = .aborting ∧ s.healthJoined then some { s with main := .closing } else none
  | .chainBuilt => s.moveMain .buildingChain .checkingPacer
  | .chainRejected => s.moveMain .buildingChain .failed
  | .pacerComplete => s.moveMain .checkingPacer .enqueuing
  | .pacerRejected => s.moveMain .checkingPacer .failed
  | .enqueued => s.moveMain .enqueuing .spawningWorkers
  | .workersSpawned =>
    if s.main = .spawningWorkers then
      some { s with
        main := .bindingApi
        workers := .running
        supervisors := fun _ => .new s.clock
        workersAt := some s.clock }
    else
      none
  | .apiBound =>
    if s.main = .bindingApi then
      some { s with main := .settingReady, api := .bound, boundAt := some s.clock }
    else
      none
  | .bindFailed => s.moveMain .bindingApi .failed
  | .setReady =>
    if s.main = .settingReady then
      some { s with main := .servingApi, health := s.health.setReady s.clock }
    else
      none
  | .serve =>
    if s.main = .servingApi then some { s with main := .joining, api := .serving } else none
  | .join =>
    if s.main = .joining ∧ s.api = .stopped ∧ s.healthJoined then
      some { s with main := .draining s.clock, joinedAt := some s.clock }
    else
      none
  | .drained =>
    match s.main with
    | .draining _ => if s.workers = .finished then some { s with main := .closing } else none
    | _ => none
  | .drainTimedOut =>
    match s.main with
    | .draining since =>
      if since + config.drain ≤ s.clock then some { s with main := .closing } else none
    | _ => none
  | .closePool =>
    if s.main = .closing ∧ s.held = 0 then
      some { s with main := .ended, closedAt := some s.clock }
    else
      none

/-- One step at `s.clock`. -/
def stepNow (config : ShutdownConfig) (s : Process) : ProcessEvent → Option Process
  | .main e => s.mainStep config e
  | .signal =>
    if s.orchestrator = .waiting then
      some { s with
        orchestrator := .grace (s.clock + config.grace)
        health := s.health.setShuttingDown s.clock }
    else
      none
  | .graceOver =>
    match s.orchestrator with
    | .grace overAt =>
      if overAt ≤ s.clock then
        some { s with orchestrator := .finished, broadcastAt := some s.clock }
      else
        none
    | _ => none
  | .task task event =>
    if task ∈ config.supervised ∧ s.workers ≠ .notSpawned then
      ((s.supervisors task).step s.broadcastAt.isSome s.clock event).map fun sup =>
        { s with supervisors := Function.update s.supervisors task sup }
    else
      none
  | .workersFinished =>
    if s.workers = .running ∧ s.broadcastAt.isSome ∧
        ∀ task ∈ config.workers, (s.supervisors task).phase = .stopped then
      some { s with workers := .finished }
    else
      none
  | .request => if s.api = .serving then some { s with requests := s.requests + 1 } else none
  | .requestDone => if 0 < s.requests then some { s with requests := s.requests - 1 } else none
  | .apiStopped =>
    if s.api = .serving ∧ s.broadcastAt.isSome ∧ s.requests = 0 then
      some { s with api := .stopped }
    else
      none
  | .healthStopped =>
    if s.healthServing ∧ s.broadcastAt.isSome ∧ s.health.probes = [] then
      some { s with healthServing := false }
    else
      none
  -- The pool gives no connection out once `close` is called.
  | .connect =>
    if s.main ≠ .closing ∧ s.main ≠ .ended then some { s with held := s.held + 1 } else none
  | .release => if 0 < s.held then some { s with held := s.held - 1 } else none
  | .probe =>
    if s.healthServing then some { s with health := s.health.arrive s.clock } else none
  | .probeGoesOn i pingError =>
    (s.health.goOn s.clock i pingError).map fun health => { s with health := health }
  | .probeDropped i =>
    if i < s.health.probes.length then some { s with health := s.health.drop i } else none

def returned (s : Process) : Prop := s.main = .ended ∨ s.main = .failed

instance (s : Process) : Decidable s.returned := inferInstanceAs (Decidable (_ ∨ _))

/-- One step at the instant given; `none` when it is not enabled. -/
def step (config : ShutdownConfig) (s : Process) (a : ℤ × ProcessEvent) : Option Process :=
  if s.clock ≤ a.1 ∧ ¬s.returned then { s with clock := a.1 }.stepNow config a.2 else none

end Process
end CryptoCollector.Lifecycle

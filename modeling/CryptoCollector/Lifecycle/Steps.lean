import CryptoCollector.Lifecycle.Process

/-!
# What a step of a process can do

The steps of `main`, of the orchestrator, of the servers, the supervised tasks, the requests and
the probes, each with what it needs and what it leaves.
-/

namespace CryptoCollector.Lifecycle
open Foundations Health Collectors

/-- The workers have finished, or the drain limit has passed since the servers were joined. -/
def Drained (config : ShutdownConfig) (s : Process) (since : ℤ) : Prop :=
  s.workers = .finished ∨ since + config.drain ≤ s.clock

/-- The events that `migrate_with_retry` goes round with. -/
def MainEvent.retries : MainEvent → Bool
  | .migrationFailed | .wake => true
  | _ => false

/-- What `main` did in one step, and whether that was to go round with the migrations. -/
inductive MainMoved (config : ShutdownConfig) (s : Process) : Bool → Process → Prop where
  | entered (h : s.main = .entering) (hbroadcast : s.broadcastAt = none) :
      MainMoved config s false { s with main := .migrating retryInitialBackoff }
  | attemptFailed {backoff : ℕ} (h : s.main = .migrating backoff) :
      MainMoved config s true { s with
        main := .retrying backoff (s.clock + backoff), failures := s.clock :: s.failures }
  | woken {backoff : ℕ} {wakesAt : ℤ} (h : s.main = .retrying backoff wakesAt)
      (hwakes : wakesAt ≤ s.clock) :
      MainMoved config s true { s with main := .migrating (doubled retryMaxBackoff backoff) }
  | aborted (h : s.main = .entering ∨ (∃ backoff, s.main = .migrating backoff) ∨
      ∃ backoff wakesAt, s.main = .retrying backoff wakesAt) (hbroadcast : s.broadcastAt.isSome) :
      MainMoved config s false { s with main := .aborting }
  | abandoned (h : s.main = .aborting) (hjoined : s.healthJoined) :
      MainMoved config s false { s with main := .closing }
  | migrated {backoff : ℕ} (h : s.main = .migrating backoff) :
      MainMoved config s false { s with main := .buildingChain, migratedAt := some s.clock }
  | validated (before after : MainPhase)
      (hpair : (before, after) ∈ [(.buildingChain, .checkingPacer), (.checkingPacer, .enqueuing),
        (.enqueuing, .spawningWorkers)]) (h : s.main = before) :
      MainMoved config s false { s with main := after }
  | rejected (h : s.main ∈ [.buildingChain, .checkingPacer, .bindingApi]) :
      MainMoved config s false { s with main := .failed }
  | workersSpawned (h : s.main = .spawningWorkers) :
      MainMoved config s false { s with
        main := .bindingApi, workers := .running, supervisors := fun _ => .new s.clock,
        workersAt := some s.clock }
  | apiBound (h : s.main = .bindingApi) :
      MainMoved config s false { s with
        main := .settingReady, api := .bound, boundAt := some s.clock }
  | ready (h : s.main = .settingReady) :
      MainMoved config s false { s with main := .servingApi, health := s.health.setReady s.clock }
  | serving (h : s.main = .servingApi) :
      MainMoved config s false { s with main := .joining, api := .serving }
  | joined (h : s.main = .joining) (hapi : s.api = .stopped) (hjoined : s.healthJoined) :
      MainMoved config s false { s with main := .draining s.clock, joinedAt := some s.clock }
  | drained {since : ℤ} (h : s.main = .draining since) (hdrained : Drained config s since) :
      MainMoved config s false { s with main := .closing }
  | closed (h : s.main = .closing) (hheld : s.held = 0) :
      MainMoved config s false { s with main := .ended, closedAt := some s.clock }

inductive Moved (config : ShutdownConfig) (s : Process) : Process → Prop where
  | main {t : Process} {retries : Bool} (h : MainMoved config s retries t) : Moved config s t
  | signalled (h : s.orchestrator = .waiting) :
      Moved config s { s with
        orchestrator := .grace (s.clock + config.grace)
        health := s.health.setShuttingDown s.clock }
  | graceOver {overAt : ℤ} (h : s.orchestrator = .grace overAt) (hover : overAt ≤ s.clock) :
      Moved config s { s with orchestrator := .finished, broadcastAt := some s.clock }
  | supervised {task : BackgroundTask} {event : SupervisorEvent} {sup : Supervisor}
      (htask : task ∈ config.supervised) (hspawned : s.workers ≠ .notSpawned)
      (h : (s.supervisors task).step s.broadcastAt.isSome s.clock event = some sup) :
      Moved config s { s with supervisors := Function.update s.supervisors task sup }
  | workersFinished (h : s.workers = .running) (hbroadcast : s.broadcastAt.isSome)
      (hstopped : ∀ task ∈ config.workers, (s.supervisors task).phase = .stopped) :
      Moved config s { s with workers := .finished }
  | asked {requests : ℕ} (h : s.api = .stopped → requests ≤ s.requests) :
      Moved config s { s with requests := requests }
  | apiStopped (h : s.api = .serving) (hbroadcast : s.broadcastAt.isSome)
      (hrequests : s.requests = 0) : Moved config s { s with api := .stopped }
  | connected {held : ℕ} (h : s.main = .ended → held ≤ s.held) :
      Moved config s { s with held := held }
  | healthStopped (hbroadcast : s.broadcastAt.isSome) (hprobes : s.health.probes = []) :
      Moved config s { s with healthServing := false }
  | probed {health : HealthServer}
      (hready : health.state.readyAt = s.health.state.readyAt)
      (hshutting : health.state.shuttingDownAt = s.health.state.shuttingDownAt)
      (hnil : s.healthServing = false → s.health.probes = [] → health.probes = [])
      (hkept : HealthKept s.health s.clock → HealthKept health s.clock) :
      Moved config s { s with health := health }

section Moves

variable {config : ShutdownConfig} {s t : Process}

theorem moveMain_eq_some {before after : MainPhase} :
    s.moveMain before after = some t ↔ s.main = before ∧ { s with main := after } = t := by
  simp [Process.moveMain, ite_eq_iff]

theorem mainStep_moved {e : MainEvent} (hstep : s.mainStep config e = some t) :
    MainMoved config s e.retries t := by
  cases e with
  | enter =>
    simp only [Process.mainStep] at hstep
    split at hstep
    · next h =>
      obtain rfl := Option.some.inj hstep
      split_ifs with hbroadcast
      · exact .aborted (.inl h) hbroadcast
      · exact .entered h (by simpa using hbroadcast)
    · cases hstep
  | migrated =>
    simp only [Process.mainStep] at hstep
    split at hstep
    · next h =>
      obtain rfl := Option.some.inj hstep
      exact .migrated h
    · cases hstep
  | migrationFailed =>
    simp only [Process.mainStep] at hstep
    split at hstep
    · next h =>
      obtain rfl := Option.some.inj hstep
      exact .attemptFailed h
    · cases hstep
  | wake =>
    simp only [Process.mainStep] at hstep
    split at hstep
    · next h =>
      split_ifs at hstep with hwakes
      obtain rfl := Option.some.inj hstep
      exact .woken h hwakes
    · cases hstep
  | abort =>
    simp only [Process.mainStep] at hstep
    split at hstep
    · next h =>
      split_ifs at hstep with hbroadcast
      obtain rfl := Option.some.inj hstep
      exact .aborted (.inr (.inl ⟨_, h⟩)) hbroadcast
    · next h =>
      split_ifs at hstep with hbroadcast
      obtain rfl := Option.some.inj hstep
      exact .aborted (.inr (.inr ⟨_, _, h⟩)) hbroadcast
    · cases hstep
  | joinHealth =>
    simp only [Process.mainStep] at hstep
    split_ifs at hstep with h
    obtain rfl := Option.some.inj hstep
    exact .abandoned h.1 h.2
  | chainBuilt =>
    obtain ⟨h, rfl⟩ := moveMain_eq_some.mp hstep
    exact .validated .buildingChain .checkingPacer (by simp) h
  | pacerComplete =>
    obtain ⟨h, rfl⟩ := moveMain_eq_some.mp hstep
    exact .validated .checkingPacer .enqueuing (by simp) h
  | enqueued =>
    obtain ⟨h, rfl⟩ := moveMain_eq_some.mp hstep
    exact .validated .enqueuing .spawningWorkers (by simp) h
  | chainRejected =>
    obtain ⟨h, rfl⟩ := moveMain_eq_some.mp hstep
    exact .rejected (by simp [h])
  | pacerRejected =>
    obtain ⟨h, rfl⟩ := moveMain_eq_some.mp hstep
    exact .rejected (by simp [h])
  | bindFailed =>
    obtain ⟨h, rfl⟩ := moveMain_eq_some.mp hstep
    exact .rejected (by simp [h])
  | workersSpawned =>
    simp only [Process.mainStep] at hstep
    split_ifs at hstep with h
    obtain rfl := Option.some.inj hstep
    exact .workersSpawned h
  | apiBound =>
    simp only [Process.mainStep] at hstep
    split_ifs at hstep with h
    obtain rfl := Option.some.inj hstep
    exact .apiBound h
  | setReady =>
    simp only [Process.mainStep] at hstep
    split_ifs at hstep with h
    obtain rfl := Option.some.inj hstep
    exact .ready h
  | serve =>
    simp only [Process.mainStep] at hstep
    split_ifs at hstep with h
    obtain rfl := Option.some.inj hstep
    exact .serving h
  | join =>
    simp only [Process.mainStep] at hstep
    split_ifs at hstep with h
    obtain rfl := Option.some.inj hstep
    exact .joined h.1 h.2.1 h.2.2
  | drained =>
    simp only [Process.mainStep] at hstep
    split at hstep
    · next h =>
      split_ifs at hstep with hfinished
      obtain rfl := Option.some.inj hstep
      exact .drained h (.inl hfinished)
    · cases hstep
  | drainTimedOut =>
    simp only [Process.mainStep] at hstep
    split at hstep
    · next h =>
      split_ifs at hstep with htimeout
      obtain rfl := Option.some.inj hstep
      exact .drained h (.inr htimeout)
    · cases hstep
  | closePool =>
    simp only [Process.mainStep] at hstep
    split_ifs at hstep with h
    obtain rfl := Option.some.inj hstep
    exact .closed h.1 h.2

theorem stepNow_moved {e : ProcessEvent} (hstep : s.stepNow config e = some t) :
    Moved config s t := by
  cases e with
  | main e => exact .main (mainStep_moved hstep)
  | signal =>
    simp only [Process.stepNow] at hstep
    split_ifs at hstep with h
    obtain rfl := Option.some.inj hstep
    exact .signalled h
  | graceOver =>
    simp only [Process.stepNow] at hstep
    split at hstep
    · next h =>
      split_ifs at hstep with hover
      obtain rfl := Option.some.inj hstep
      exact .graceOver h hover
    · cases hstep
  | task task event =>
    simp only [Process.stepNow] at hstep
    split_ifs at hstep with h
    obtain ⟨sup, hsup, rfl⟩ := Option.map_eq_some_iff.mp hstep
    exact .supervised h.1 h.2 hsup
  | workersFinished =>
    simp only [Process.stepNow] at hstep
    split_ifs at hstep with h
    obtain rfl := Option.some.inj hstep
    exact .workersFinished h.1 h.2.1 h.2.2
  | request =>
    simp only [Process.stepNow] at hstep
    split_ifs at hstep with h
    obtain rfl := Option.some.inj hstep
    exact .asked fun hstopped => by simp [hstopped] at h
  | requestDone =>
    simp only [Process.stepNow] at hstep
    split_ifs at hstep
    obtain rfl := Option.some.inj hstep
    exact .asked fun _ => Nat.sub_le _ _
  | apiStopped =>
    simp only [Process.stepNow] at hstep
    split_ifs at hstep with h
    obtain rfl := Option.some.inj hstep
    exact .apiStopped h.1 h.2.1 h.2.2
  | connect =>
    simp only [Process.stepNow] at hstep
    split_ifs at hstep with h
    obtain rfl := Option.some.inj hstep
    exact .connected fun hended => absurd hended h.2
  | release =>
    simp only [Process.stepNow] at hstep
    split_ifs at hstep
    obtain rfl := Option.some.inj hstep
    exact .connected fun _ => Nat.sub_le _ _
  | healthStopped =>
    simp only [Process.stepNow] at hstep
    split_ifs at hstep with h
    obtain rfl := Option.some.inj hstep
    exact .healthStopped h.2.1 h.2.2
  | probe =>
    simp only [Process.stepNow] at hstep
    split_ifs at hstep with h
    obtain rfl := Option.some.inj hstep
    exact .probed rfl rfl (fun hstopped => by simp [hstopped] at h) HealthKept.arrive
  | probeGoesOn i pingError =>
    obtain ⟨health, hgoes, rfl⟩ := Option.map_eq_some_iff.mp hstep
    obtain ⟨hready, hshutting⟩ := goOn_flags hgoes
    refine .probed hready hshutting ?_ fun hkept => hkept.goOn hgoes
    intro _ hnil
    simp [goOn_nil hnil] at hgoes
  | probeDropped i =>
    simp only [Process.stepNow] at hstep
    split_ifs at hstep
    obtain rfl := Option.some.inj hstep
    exact .probed rfl rfl (fun _ hnil => by simp [HealthServer.drop, hnil])
      fun hkept => hkept.drop i

end Moves
end CryptoCollector.Lifecycle

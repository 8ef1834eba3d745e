import CryptoCollector.Alarm.Registry
import CryptoCollector.Foundations.Backoff
import CryptoCollector.Foundations.Runs

/-!
# The supervisor of the background tasks

The three workers, the reconciler and both relays run under one loop. A task that
fails is started again after a delay that doubles up to a cap and falls back to the
initial one when the task has been up for long enough. The loops share the
shutdown flag and, for the workers, the health registry; their events interleave
freely, each at its own reading of the clock. Instants and durations are
nanoseconds.
-/

namespace CryptoCollector.Collectors
open Foundations Providers Alarm

def superviseInitialBackoff : ℕ := 1 * 1000000000

def superviseMaxBackoff : ℕ := 30 * 1000000000

def superviseHealthyReset : ℕ := 60 * 1000000000

def nextBackoff (current : ℕ) : ℕ := min (current * 2) superviseMaxBackoff

def superviseNextDelay (current uptime : ℕ) : ℕ × ℕ :=
  let delay := if uptime ≥ superviseHealthyReset then superviseInitialBackoff else current
  (delay, nextBackoff delay)

/-- What `spawn_workers` and `main` hand to `run_supervised`. -/
inductive BackgroundTask where
  | livePoller
  | collectionQueue
  | backfill
  | reconciler
  | coinQuoteRelay
  | coinCandleRelay
  deriving DecidableEq, Repr

namespace BackgroundTask

def name : BackgroundTask → String
  | livePoller => "live_poller"
  | collectionQueue => "collection_queue"
  | backfill => "backfill"
  | reconciler => "reconciler"
  | coinQuoteRelay => "coin_quote_relay"
  | coinCandleRelay => "coin_candle_relay"

/-- The task is given the health registry. -/
def registered : BackgroundTask → Bool
  | livePoller | collectionQueue | backfill => true
  | reconciler | coinQuoteRelay | coinCandleRelay => false

theorem name_injective : Function.Injective name := by
  intro a b h
  cases a <;> cases b <;> first | rfl | exact absurd h (by decide)

end BackgroundTask

/-- How a run of a task ends. -/
inductive TaskEnd where
  | ok
  | error
  | panicked
  deriving DecidableEq, Repr

/-- Where the loop stands: asleep or at its head, with the instant the sleep is
over; in a run; after the restart was recorded; or past the loop. -/
inductive SupervisorPhase where
  | ready (wakesAt : ℤ)
  | running (started : ℤ)
  | failed (started recorded : ℤ)
  | stopped
  deriving DecidableEq, Repr

/-- A run that failed, and the delay after it. -/
structure FailedRun where
  started : ℤ
  uptime : ℕ
  delay : ℕ
  deriving DecidableEq, Repr

def FailedRun.resumes (run : FailedRun) : ℤ := run.started + run.uptime + run.delay

/-- One `run_supervised`, with what it has done so far, newest first: when it
started the task, when it recorded a restart, and the runs that failed. -/
structure Supervisor where
  phase : SupervisorPhase
  backoff : ℕ
  starts : List ℤ
  restarts : List ℤ
  failures : List FailedRun
  deriving DecidableEq, Repr

/-- What happens next in the loop. -/
inductive SupervisorEvent where
  | start
  | finish (result : TaskEnd)
  | backOff
  deriving DecidableEq, Repr

namespace Supervisor

/-- The loop is entered at `now`. -/
def new (now : ℤ) : Supervisor := ⟨.ready now, superviseInitialBackoff, [], [], []⟩

/-- `if *shutdown.borrow() { break; }`, then the task is spawned. -/
def start (shutdown : Bool) (now : ℤ) (sup : Supervisor) : Supervisor :=
  if shutdown then
    { sup with phase := .stopped }
  else
    { sup with phase := .running now, starts := now :: sup.starts }

/-- The `match` on the result, and the restart recorded after it. -/
def finish (shutdown : Bool) (now started : ℤ) (result : TaskEnd) (sup : Supervisor) :
    Supervisor :=
  if result = .ok ∨ shutdown then
    { sup with phase := .stopped }
  else
    { sup with phase := .failed started now, restarts := now :: sup.restarts }

/-- `supervise_next_delay` and the sleep. -/
def backOff (now started : ℤ) (sup : Supervisor) : Supervisor :=
  let uptime := saturatingDurationSince now started
  let next := superviseNextDelay sup.backoff uptime
  { sup with
    phase := .ready (now + next.1)
    backoff := next.2
    failures := ⟨started, uptime, next.1⟩ :: sup.failures }

/-- One event of the loop; `none` when it is not its turn. -/
def step (shutdown : Bool) (now : ℤ) (sup : Supervisor) : SupervisorEvent → Option Supervisor
  | .start =>
    match sup.phase with
    | .ready wakesAt => if wakesAt ≤ now then some (sup.start shutdown now) else none
    | _ => none
  | .finish result =>
    match sup.phase with
    | .running started => some (sup.finish shutdown now started result)
    | _ => none
  | .backOff =>
    match sup.phase with
    | .failed started _ => some (sup.backOff now started)
    | _ => none

theorem step_cases {shutdown : Bool} {now : ℤ} {sup sup' : Supervisor} {event : SupervisorEvent}
    (h : sup.step shutdown now event = some sup') :
    (∃ wakesAt, event = .start ∧ sup.phase = .ready wakesAt ∧ wakesAt ≤ now ∧
      sup' = sup.start shutdown now) ∨
    (∃ result started, event = .finish result ∧ sup.phase = .running started ∧
      sup' = sup.finish shutdown now started result) ∨
    (∃ started recorded, event = .backOff ∧ sup.phase = .failed started recorded ∧
      sup' = sup.backOff now started) := by
  cases event with
  | start =>
    simp only [step] at h
    split at h
    · next wakesAt hphase =>
      split_ifs at h with hwake
      exact Or.inl ⟨wakesAt, rfl, hphase, hwake, (Option.some.inj h).symm⟩
    · cases h
  | finish result =>
    simp only [step] at h
    split at h
    · next started hphase =>
      exact Or.inr (Or.inl ⟨result, started, rfl, hphase, (Option.some.inj h).symm⟩)
    · cases h
  | backOff =>
    simp only [step] at h
    split at h
    · next started recorded hphase =>
      exact Or.inr (Or.inr ⟨started, recorded, rfl, hphase, (Option.some.inj h).symm⟩)
    · cases h

end Supervisor

/-- The tasks of a process, the shutdown flag and the registry. -/
structure Supervision where
  clock : ℤ
  shutdown : Bool
  registry : HealthRegistry
  tasks : BackgroundTask → Supervisor

/-- An event of one of the loops, the broadcast of the shutdown, or a poke of the
registry from elsewhere. -/
inductive SuperviseAction where
  | task (now : ℤ) (task : BackgroundTask) (event : SupervisorEvent)
  | shutdown (now : ℤ)
  | poke (now : ℤ) (poke : HealthPoke)

def SuperviseAction.now : SuperviseAction → ℤ
  | .task now _ _ => now
  | .shutdown now => now
  | .poke now _ => now

def SuperviseAction.of (task : BackgroundTask) : SuperviseAction → Bool
  | .task _ other _ => decide (other = task)
  | .shutdown _ => false
  | .poke _ _ => false

/-- `record_worker_restart`, after a run that is to be followed by another. -/
def recordRestart (task : BackgroundTask) (now : ℤ) (event : SupervisorEvent) (after : Supervisor)
    (reg : HealthRegistry) : HealthRegistry :=
  match event, after.phase with
  | .finish _, .failed _ _ =>
    if task.registered then reg.recordWorkerRestart now task.name else reg
  | _, _ => reg

/-- One step. The clock does not run back. -/
def superviseStep (s : Supervision) (a : SuperviseAction) : Option Supervision :=
  if s.clock ≤ a.now then
    match a with
    | .task now task event =>
      ((s.tasks task).step s.shutdown now event).map fun sup =>
        { s with
          clock := now
          registry := recordRestart task now event sup s.registry
          tasks := Function.update s.tasks task sup }
    | .shutdown now => some { s with clock := now, shutdown := true }
    | .poke now poke => some { s with clock := now, registry := s.registry.record now poke }
  else
    none

/-- All loops are entered at `now`. -/
def Supervision.new (now : ℤ) : Supervision :=
  ⟨now, false, .new, fun _ => Supervisor.new now⟩

theorem superviseStep_cases {s t : Supervision} {a : SuperviseAction}
    (h : superviseStep s a = some t) :
    s.clock ≤ a.now ∧ t.clock = a.now ∧
      ((∃ task event sup, a = .task a.now task event ∧
        (s.tasks task).step s.shutdown a.now event = some sup ∧ t.shutdown = s.shutdown ∧
        t.registry = recordRestart task a.now event sup s.registry ∧
        t.tasks = Function.update s.tasks task sup) ∨
      (a = .shutdown a.now ∧ t.shutdown = true ∧ t.registry = s.registry ∧ t.tasks = s.tasks) ∨
      (∃ poke, a = .poke a.now poke ∧ t.shutdown = s.shutdown ∧
        t.registry = s.registry.record a.now poke ∧ t.tasks = s.tasks)) := by
  unfold superviseStep at h
  split_ifs at h with hclock
  cases a with
  | task now task event =>
    obtain ⟨sup, hsup, rfl⟩ := Option.map_eq_some_iff.mp h
    exact ⟨hclock, rfl, Or.inl ⟨task, event, sup, rfl, hsup, rfl, rfl, rfl⟩⟩
  | shutdown now =>
    cases h
    exact ⟨hclock, rfl, Or.inr (Or.inl ⟨rfl, rfl, rfl, rfl⟩)⟩
  | poke now poke =>
    cases h
    exact ⟨hclock, rfl, Or.inr (Or.inr ⟨poke, rfl, rfl, rfl, rfl⟩)⟩

/-- A step as one task sees it: its own event, or only time has passed. -/
theorem superviseStep_task {s t : Supervision} {a : SuperviseAction}
    (h : superviseStep s a = some t) (task : BackgroundTask) :
    (∃ event, a = .task a.now task event ∧
      (s.tasks task).step s.shutdown a.now event = some (t.tasks task)) ∨
    (a.of task = false ∧ t.tasks task = s.tasks task) := by
  obtain ⟨-, -, ⟨other, event, sup, ha, hsup, -, -, htasks⟩ | ⟨ha, -, -, htasks⟩ |
    ⟨poke, ha, -, -, htasks⟩⟩ := superviseStep_cases h
  · by_cases htask : other = task
    · subst htask
      rw [htasks, Function.update_self]
      exact Or.inl ⟨event, ha, hsup⟩
    · rw [htasks, Function.update_of_ne (Ne.symm htask), ha]
      exact Or.inr ⟨by simp [SuperviseAction.of, htask], rfl⟩
  · exact Or.inr ⟨by rw [ha]; rfl, congrFun htasks task⟩
  · exact Or.inr ⟨by rw [ha]; rfl, congrFun htasks task⟩

/-- What a loop keeps at each of its events, and while time passes, holds of a task
in every state reached. -/
theorem task_invariant {I : ℤ → Supervisor → Prop} {task : BackgroundTask}
    {C : Supervision → SuperviseAction → Prop}
    (hwait : ∀ s a, C s a → I s.clock (s.tasks task) → s.clock ≤ a.now →
      I a.now (s.tasks task))
    (hstep : ∀ s a event sup, C s a → I s.clock (s.tasks task) → s.clock ≤ a.now →
      a = .task a.now task event → (s.tasks task).step s.shutdown a.now event = some sup →
      I a.now sup)
    {s t : Supervision} {as : List SuperviseAction} (hs : I s.clock (s.tasks task))
    (hmeet : StepsMeet superviseStep C s as) (hrun : exec superviseStep s as = some t) :
    I t.clock (t.tasks task) := by
  refine exec_invariant_of_steps (I := fun s => I s.clock (s.tasks task)) ?_ hs hmeet hrun
  intro s a t hI hC h
  obtain ⟨hclock, hnow, -⟩ := superviseStep_cases h
  rw [hnow]
  rcases superviseStep_task h task with ⟨event, ha, hsup⟩ | ⟨-, hsame⟩
  · exact hstep s a event _ hC hI hclock ha hsup
  · rw [hsame]
    exact hwait s a hC hI hclock

end CryptoCollector.Collectors

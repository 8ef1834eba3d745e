import CryptoCollector.Lifecycle.Runs

/-!
# The end of a process

Once the shutdown is broadcast the process has a bounded number of steps left, and until it
returns one of them is enabled within the drain limit. What may hold it up beyond that is
requests, probes and connections that are not done with or still come, and migration attempts
that still fail.
-/

namespace CryptoCollector.Lifecycle
open Foundations Health Collectors

def probeStepsLeft : ProbePhase → ℕ
  | .begun => 5
  | .notShuttingDown => 4
  | .ready => 3
  | .pinging => 2
  | .pinged _ _ => 1

def probesLeft (probes : List Probe) : ℕ := (probes.map fun probe => probeStepsLeft probe.phase).sum

/-- The steps `main` has left at most, rounds of `migrate_with_retry` not counted. -/
def MainPhase.stepsLeft : MainPhase → ℕ
  | .entering => 12
  | .migrating _ | .retrying _ _ => 11
  | .buildingChain => 10
  | .checkingPacer => 9
  | .enqueuing => 8
  | .spawningWorkers => 7
  | .bindingApi => 6
  | .settingReady => 5
  | .servingApi => 4
  | .joining => 3
  | .draining _ | .aborting => 2
  | .closing => 1
  | .ended | .failed => 0

def Workers.stepsLeft : Workers → ℕ
  | .notSpawned | .running => 1
  | .finished => 0

def ApiServer.stepsLeft : ApiServer → ℕ
  | .unbound | .bound | .serving => 1
  | .stopped => 0

def Process.supervisionLeft (config : ShutdownConfig) (s : Process) : ℕ :=
  if s.workers = .notSpawned then config.supervised.length
  else (config.supervised.map fun task => (s.supervisors task).phase.eventsLeft).sum

def Process.stepsLeft (config : ShutdownConfig) (s : Process) : ℕ :=
  s.main.stepsLeft + s.workers.stepsLeft + s.api.stepsLeft + (if s.healthServing then 1 else 0) +
    probesLeft s.health.probes + s.requests + s.held + s.supervisionLeft config

/-- A step that brings the process nearer to its end. -/
def settles (a : ℤ × ProcessEvent) : Bool :=
  match a.2 with
  | .main e => !e.retries
  | .probe | .request | .connect => false
  | _ => true

/-- The steps that a probe, a request or a connection brings. -/
def brings (a : ℤ × ProcessEvent) : ℕ :=
  match a.2 with
  | .probe => 5
  | .request | .connect => 1
  | _ => 0

section Probes

variable {w w' : HealthServer} {now : ℤ} {i : ℕ} {pingError : Option String} {probe : Probe}

theorem checkReadiness_stepsLeft {h : HealthState} {probe' : Probe}
    (hnext : (checkReadiness h now pingError probe).2 = .inl probe') :
    probeStepsLeft probe'.phase + 1 = probeStepsLeft probe.phase := by
  unfold checkReadiness at hnext
  split at hnext
  · next hphase =>
    split_ifs at hnext
    obtain rfl := Sum.inl.inj hnext
    simp [hphase, probeStepsLeft]
  · next hphase =>
    split_ifs at hnext
    obtain rfl := Sum.inl.inj hnext
    simp [hphase, probeStepsLeft]
  · next hphase =>
    split at hnext
    · split_ifs at hnext
      obtain rfl := Sum.inl.inj hnext
      simp [hphase, probeStepsLeft]
    · obtain rfl := Sum.inl.inj hnext
      simp [hphase, probeStepsLeft]
  · next hphase =>
    obtain rfl := Sum.inl.inj hnext
    simp [hphase, probeStepsLeft]
  · cases hnext

theorem probeStepsLeft_pos (phase : ProbePhase) : 1 ≤ probeStepsLeft phase := by
  cases phase <;> simp [probeStepsLeft]

theorem probesLeft_cons (probes : List Probe) :
    probesLeft (probe :: probes) = probeStepsLeft probe.phase + probesLeft probes := by
  simp [probesLeft]

theorem probesLeft_eq {probes : List Probe} (hat : probes[i]? = some probe) :
    probesLeft probes = probesLeft (probes.eraseIdx i) + probeStepsLeft probe.phase ∧
      ∀ probe', probesLeft (probes.set i probe') =
        probesLeft (probes.eraseIdx i) + probeStepsLeft probe'.phase := by
  induction probes generalizing i with
  | nil => simp at hat
  | cons first probes ih =>
    cases i with
    | zero =>
      obtain rfl : first = probe := by simpa using hat
      simp [probesLeft_cons, Nat.add_comm]
    | succ i =>
      obtain ⟨hsame, hset⟩ := ih (i := i) (by simpa using hat)
      simp only [List.eraseIdx_cons_succ, List.set_cons_succ, probesLeft_cons]
      constructor
      · omega
      · intro probe'
        rw [hset, Nat.add_assoc]

theorem goOn_stepsLeft (hstep : w.goOn now i pingError = some w') :
    probesLeft w'.probes + 1 ≤ probesLeft w.probes := by
  obtain ⟨probe, hat, rfl⟩ := Option.map_eq_some_iff.mp hstep
  obtain ⟨hsame, hset⟩ := probesLeft_eq hat
  have hprobes : (w.logPing now pingError probe).probes = w.probes := by
    unfold HealthServer.logPing
    split_ifs <;> rfl
  unfold HealthServer.settle
  split
  · next probe' hnext =>
    have hless := checkReadiness_stepsLeft hnext
    simp only [hprobes, hset]
    omega
  · have hpos := probeStepsLeft_pos probe.phase
    simp only [hprobes]
    omega

theorem drop_stepsLeft (hlt : i < w.probes.length) :
    probesLeft (w.drop i).probes + 1 ≤ probesLeft w.probes := by
  obtain ⟨hsame, -⟩ := probesLeft_eq (List.getElem?_eq_getElem hlt)
  have hpos := probeStepsLeft_pos (w.probes[i]).phase
  simp only [HealthServer.drop]
  omega

theorem arrive_stepsLeft : probesLeft (w.arrive now).probes = probesLeft w.probes + 5 := by
  simp [HealthServer.arrive, probesLeft, probeStepsLeft]

end Probes

section Steps

variable {config : ShutdownConfig} {s t : Process} {now : ℤ}

theorem stepsLeft_of_main {k : ℕ} (hmain : t.main.stepsLeft + k ≤ s.main.stepsLeft)
    (hworkers : t.workers.stepsLeft ≤ s.workers.stepsLeft)
    (hapi : t.api.stepsLeft ≤ s.api.stepsLeft) (hserving : t.healthServing = s.healthServing)
    (hprobes : t.health.probes = s.health.probes) (hrequests : t.requests = s.requests)
    (hheld : t.held = s.held)
    (hsupervision : t.supervisionLeft config = s.supervisionLeft config) :
    t.stepsLeft config + k ≤ s.stepsLeft config := by
  unfold Process.stepsLeft
  rw [hserving, hprobes, hrequests, hheld, hsupervision]
  omega

theorem supervisionLeft_spawned (hspawned : s.workers = .notSpawned) (now : ℤ) :
    ({ s with
      main := .bindingApi, workers := .running, supervisors := fun _ => .new now,
      workersAt := some now } : Process).supervisionLeft config = s.supervisionLeft config := by
  simp [Process.supervisionLeft, hspawned, Supervisor.new, SupervisorPhase.eventsLeft]

theorem supervisionLeft_step {task : BackgroundTask} {event : SupervisorEvent} {sup : Supervisor}
    (htask : task ∈ config.supervised) (hspawned : s.workers ≠ .notSpawned)
    (h : (s.supervisors task).step true now event = some sup) :
    ({ s with supervisors := Function.update s.supervisors task sup } :
      Process).supervisionLeft config + 1 ≤ s.supervisionLeft config := by
  have hless := (step_after_shutdown h).2.2
  simp only [Process.supervisionLeft, if_neg hspawned]
  refine Nat.succ_le_of_lt (List.sum_lt_sum _ _ ?_ ⟨task, htask, ?_⟩)
  · intro other _
    by_cases hsame : other = task
    · subst hsame
      simp only [Function.update_self]
      omega
    · simp only [Function.update_of_ne hsame, le_refl]
  · simp only [Function.update_self]
    omega

theorem MainMoved.stepsLeft {retries : Bool} (h : MainMoved config s retries t)
    (hstart : StartKept s) (hbroadcast : s.broadcastAt.isSome) :
    t.stepsLeft config + (if retries then 0 else 1) ≤ s.stepsLeft config := by
  have hstanding := hstart.standing
  cases h with
  | entered hmain hnone => simp [hnone] at hbroadcast
  | aborted hmain _ =>
    refine stepsLeft_of_main ?_ le_rfl le_rfl rfl rfl rfl rfl rfl
    obtain hmain | ⟨_, hmain⟩ | ⟨_, _, hmain⟩ := hmain <;> simp [MainPhase.stepsLeft, hmain]
  | validated before after hpair hmain =>
    refine stepsLeft_of_main ?_ le_rfl le_rfl rfl rfl rfl rfl rfl
    simp only [List.mem_cons, Prod.mk.injEq, List.not_mem_nil, or_false] at hpair
    obtain ⟨rfl, rfl⟩ | ⟨rfl, rfl⟩ | ⟨rfl, rfl⟩ := hpair <;> simp [MainPhase.stepsLeft, hmain]
  | rejected hmain =>
    refine stepsLeft_of_main ?_ le_rfl le_rfl rfl rfl rfl rfl rfl
    simp only [List.mem_cons, List.not_mem_nil, or_false] at hmain
    obtain hmain | hmain | hmain := hmain <;> simp [MainPhase.stepsLeft, hmain]
  | workersSpawned hmain =>
    rw [hmain] at hstanding
    have hworkers := hstart.workers.mpr hstanding.2
    refine stepsLeft_of_main ?_ ?_ le_rfl rfl rfl rfl rfl (supervisionLeft_spawned hworkers s.clock)
    · simp [MainPhase.stepsLeft, hmain]
    · simp [Workers.stepsLeft, hworkers]
  | apiBound hmain =>
    rw [hmain] at hstanding
    have hapi := hstart.api.mpr hstanding.2
    refine stepsLeft_of_main ?_ le_rfl ?_ rfl rfl rfl rfl rfl
    · simp [MainPhase.stepsLeft, hmain]
    · simp [ApiServer.stepsLeft, hapi]
  | serving hmain =>
    rw [hmain] at hstanding
    refine stepsLeft_of_main ?_ le_rfl ?_ rfl rfl rfl rfl rfl
    · simp [MainPhase.stepsLeft, hmain]
    · simp [ApiServer.stepsLeft, hstanding.2]
  | attemptFailed hmain | woken hmain _ | migrated hmain | abandoned hmain _ | ready hmain
  | joined hmain _ _ | drained hmain _ | closed hmain _ =>
    exact stepsLeft_of_main (by simp [MainPhase.stepsLeft, hmain]) le_rfl le_rfl rfl rfl rfl rfl rfl

theorem ShutdownKept.orchestrated (h : ShutdownKept config s) (hbroadcast : s.broadcastAt.isSome) :
    s.orchestrator = .finished := by
  have hkept := h.orchestrator
  cases hphase : s.orchestrator <;> rw [hphase] at hkept
  · simp [hkept.2] at hbroadcast
  · simp [hkept.2] at hbroadcast

/-- A step after the broadcast, counted when it settles something. -/
theorem stepNow_stepsLeft (h : ProcessKept config s) (hbroadcast : s.broadcastAt.isSome)
    {e : ProcessEvent} (hstep : s.stepNow config e = some t) :
    t.stepsLeft config + (if settles (now, e) then 1 else 0) ≤
      s.stepsLeft config + brings (now, e) := by
  have horchestrator := h.shutdown.orchestrated hbroadcast
  cases e with
  | main e =>
    have hless := (mainStep_moved hstep).stepsLeft h.start hbroadcast
    cases hretries : e.retries <;> simpa [settles, brings, hretries] using hless
  | signal => simp [Process.stepNow, horchestrator] at hstep
  | graceOver => simp [Process.stepNow, horchestrator] at hstep
  | task task event =>
    simp only [Process.stepNow] at hstep
    split_ifs at hstep with hguard
    obtain ⟨sup, hsup, rfl⟩ := Option.map_eq_some_iff.mp hstep
    rw [hbroadcast] at hsup
    have hless := supervisionLeft_step hguard.1 hguard.2 hsup
    simp only [Process.stepsLeft, settles, brings, if_true]
    omega
  | workersFinished =>
    simp only [Process.stepNow] at hstep
    split_ifs at hstep with hguard
    obtain rfl := Option.some.inj hstep
    simp [Process.stepsLeft, Process.supervisionLeft, Workers.stepsLeft, hguard.1, settles, brings]
  | request =>
    simp only [Process.stepNow] at hstep
    split_ifs at hstep
    obtain rfl := Option.some.inj hstep
    simp only [Process.stepsLeft, Process.supervisionLeft, settles, brings, Bool.false_eq_true,
      if_false]
    omega
  | requestDone =>
    simp only [Process.stepNow] at hstep
    split_ifs at hstep with hguard
    obtain rfl := Option.some.inj hstep
    simp only [Process.stepsLeft, Process.supervisionLeft, settles, brings, if_true]
    omega
  | apiStopped =>
    simp only [Process.stepNow] at hstep
    split_ifs at hstep with hguard
    obtain rfl := Option.some.inj hstep
    simp [Process.stepsLeft, Process.supervisionLeft, ApiServer.stepsLeft, hguard.1, settles,
      brings]
  | healthStopped =>
    simp only [Process.stepNow] at hstep
    split_ifs at hstep with hguard
    obtain rfl := Option.some.inj hstep
    simp [Process.stepsLeft, Process.supervisionLeft, hguard.1, settles, brings]
  | connect =>
    simp only [Process.stepNow] at hstep
    split_ifs at hstep
    obtain rfl := Option.some.inj hstep
    simp only [Process.stepsLeft, Process.supervisionLeft, settles, brings, Bool.false_eq_true,
      if_false]
    omega
  | release =>
    simp only [Process.stepNow] at hstep
    split_ifs at hstep with hguard
    obtain rfl := Option.some.inj hstep
    simp only [Process.stepsLeft, Process.supervisionLeft, settles, brings, if_true]
    omega
  | probe =>
    simp only [Process.stepNow] at hstep
    split_ifs at hstep
    obtain rfl := Option.some.inj hstep
    simp only [Process.stepsLeft, Process.supervisionLeft, arrive_stepsLeft, settles, brings,
      Bool.false_eq_true, if_false]
    omega
  | probeGoesOn i pingError =>
    obtain ⟨health, hgoes, rfl⟩ := Option.map_eq_some_iff.mp hstep
    have hless := goOn_stepsLeft hgoes
    simp only [Process.stepsLeft, Process.supervisionLeft, settles, brings, if_true]
    omega
  | probeDropped i =>
    simp only [Process.stepNow] at hstep
    split_ifs at hstep with hlt
    obtain rfl := Option.some.inj hstep
    have hless := drop_stepsLeft hlt
    simp only [Process.stepsLeft, Process.supervisionLeft, settles, brings, if_true]
    omega

theorem processStep_stepsLeft (h : ProcessKept config s) (hbroadcast : s.broadcastAt.isSome)
    {a : ℤ × ProcessEvent} (hstep : s.step config a = some t) :
    t.stepsLeft config + (if settles a then 1 else 0) ≤ s.stepsLeft config + brings a := by
  simp only [Process.step] at hstep
  split_ifs at hstep with hlater
  exact stepNow_stepsLeft (h.wait hlater.1) hbroadcast hstep

theorem healthServer_goes_on (now : ℤ) (hserving : s.healthServing = true)
    (hbroadcast : s.broadcastAt.isSome) :
    ∃ e, settles (now, e) = true ∧ (s.stepNow config e).isSome := by
  cases hprobes : s.health.probes with
  | nil => exact ⟨.healthStopped, rfl, by simp [Process.stepNow, hserving, hbroadcast, hprobes]⟩
  | cons probe probes =>
    exact ⟨.probeGoesOn 0 none, rfl, by simp [Process.stepNow, HealthServer.goOn, hprobes]⟩

/-- Whatever `main` waits for has a step left. -/
theorem stepNow_goes_on (now : ℤ) (h : ProcessKept config s)
    (hbroadcast : s.broadcastAt.isSome) (hreturned : ¬s.returned)
    (hdrained : ∀ since, s.main = .draining since → since + config.drain ≤ s.clock) :
    ∃ e, settles (now, e) = true ∧ (s.stepNow config e).isSome := by
  have horchestrator := h.shutdown.orchestrated hbroadcast
  have hstanding := h.start.standing
  cases hmain : s.main with
  | entering => exact ⟨.main .enter, rfl, by simp [Process.stepNow, Process.mainStep, hmain]⟩
  | migrating backoff =>
    exact ⟨.main .abort, rfl, by simp [Process.stepNow, Process.mainStep, hmain, hbroadcast]⟩
  | retrying backoff wakesAt =>
    exact ⟨.main .abort, rfl, by simp [Process.stepNow, Process.mainStep, hmain, hbroadcast]⟩
  | aborting =>
    cases hserving : s.healthServing with
    | true => exact healthServer_goes_on now hserving hbroadcast
    | false =>
      exact ⟨.main .joinHealth, rfl, by
        simp [Process.stepNow, Process.mainStep, hmain, Process.healthJoined, hserving,
          horchestrator]⟩
  | buildingChain =>
    exact ⟨.main .chainBuilt, rfl, by
      simp [Process.stepNow, Process.mainStep, Process.moveMain, hmain]⟩
  | checkingPacer =>
    exact ⟨.main .pacerComplete, rfl, by
      simp [Process.stepNow, Process.mainStep, Process.moveMain, hmain]⟩
  | enqueuing =>
    exact ⟨.main .enqueued, rfl, by
      simp [Process.stepNow, Process.mainStep, Process.moveMain, hmain]⟩
  | spawningWorkers =>
    exact ⟨.main .workersSpawned, rfl, by simp [Process.stepNow, Process.mainStep, hmain]⟩
  | bindingApi => exact ⟨.main .apiBound, rfl, by simp [Process.stepNow, Process.mainStep, hmain]⟩
  | settingReady =>
    exact ⟨.main .setReady, rfl, by simp [Process.stepNow, Process.mainStep, hmain]⟩
  | servingApi => exact ⟨.main .serve, rfl, by simp [Process.stepNow, Process.mainStep, hmain]⟩
  | joining =>
    rw [hmain] at hstanding
    obtain hapi | hapi := hstanding
    · by_cases hrequests : s.requests = 0
      · exact ⟨.apiStopped, rfl, by simp [Process.stepNow, hapi, hbroadcast, hrequests]⟩
      · exact ⟨.requestDone, rfl, by simp [Process.stepNow, Nat.pos_of_ne_zero hrequests]⟩
    · cases hserving : s.healthServing with
      | true => exact healthServer_goes_on now hserving hbroadcast
      | false =>
        exact ⟨.main .join, rfl, by
          simp [Process.stepNow, Process.mainStep, hmain, hapi, Process.healthJoined, hserving,
            horchestrator]⟩
  | draining since =>
    exact ⟨.main .drainTimedOut, rfl, by
      simp [Process.stepNow, Process.mainStep, hmain, hdrained since hmain]⟩
  | closing =>
    by_cases hheld : s.held = 0
    · exact ⟨.main .closePool, rfl, by simp [Process.stepNow, Process.mainStep, hmain, hheld]⟩
    · exact ⟨.release, rfl, by simp [Process.stepNow, Nat.pos_of_ne_zero hheld]⟩
  | ended => exact absurd (Or.inl hmain) hreturned
  | failed => exact absurd (Or.inr hmain) hreturned

theorem ProcessKept.goes_on (h : ProcessKept config s) (hbroadcast : s.broadcastAt.isSome)
    (hreturned : ¬s.returned) {later : ℤ} (hlater : s.clock + config.drain ≤ later) :
    ∃ e, settles (later, e) = true ∧ (s.step config (later, e)).isSome := by
  have hclock : s.clock ≤ later := by
    have hdrain := Int.natCast_nonneg config.drain
    omega
  have hdrained : ∀ since, s.main = .draining since → since + config.drain ≤ later := by
    intro since hmain
    obtain ⟨hjoined, -⟩ := h.shutdown.draining since hmain
    have hpast := (h.shutdown.joined since hjoined).2.1
    omega
  obtain ⟨e, hsettles, hnext⟩ := stepNow_goes_on later (h.wait hclock) hbroadcast hreturned
    hdrained
  exact ⟨e, hsettles, by simpa [Process.step, hclock, hreturned] using hnext⟩

end Steps

section Completion

variable {config : ShutdownConfig} {s t : Process} {now : ℤ} {events : List (ℤ × ProcessEvent)}

theorem probesLeft_le (probes : List Probe) : probesLeft probes ≤ 5 * probes.length := by
  induction probes with
  | nil => exact Nat.zero_le _
  | cons probe probes ih =>
    have hprobe : probeStepsLeft probe.phase ≤ 5 := by
      cases probe.phase <;> simp [probeStepsLeft]
    rw [probesLeft_cons, List.length_cons]
    omega

theorem supervisionLeft_le : s.supervisionLeft config ≤ 12 := by
  have hlength : config.supervised.length ≤ 6 := by
    unfold ShutdownConfig.supervised ShutdownConfig.workers
    split_ifs <;> decide
  have hphase : ∀ left ∈ config.supervised.map fun task => (s.supervisors task).phase.eventsLeft,
      left ≤ 2 := by
    intro left hleft
    obtain ⟨task, -, rfl⟩ := List.mem_map.mp hleft
    cases (s.supervisors task).phase <;> simp [SupervisorPhase.eventsLeft]
  have hsum := List.sum_le_card_nsmul _ 2 hphase
  rw [List.length_map, smul_eq_mul] at hsum
  unfold Process.supervisionLeft
  split_ifs <;> omega

theorem process_stepsLeft_le :
    s.stepsLeft config ≤ 27 + 5 * s.health.probes.length + s.requests + s.held := by
  have hmain : s.main.stepsLeft ≤ 12 := by cases s.main <;> simp [MainPhase.stepsLeft]
  have hworkers : s.workers.stepsLeft ≤ 1 := by cases s.workers <;> simp [Workers.stepsLeft]
  have hapi : s.api.stepsLeft ≤ 1 := by cases s.api <;> simp [ApiServer.stepsLeft]
  have hprobes := probesLeft_le s.health.probes
  have hsupervision : s.supervisionLeft config ≤ 12 := supervisionLeft_le
  unfold Process.stepsLeft
  split_ifs <;> omega

/-- Once the shutdown is broadcast the process takes at most 27 more steps, 5 for each probe and
one for each request and each connection that is under way or still comes, rounds of failing
migrations apart; and until it has returned one of them is enabled within the drain limit. -/
theorem shutdown_completes {more : List (ℤ × ProcessEvent)}
    (hrun : exec (Process.step config) (.start now) events = some s)
    (hbroadcast : s.broadcastAt.isSome)
    (hmore : exec (Process.step config) s more = some t) :
    more.countP settles ≤
        27 + 5 * s.health.probes.length + s.requests + s.held + (more.map brings).sum ∧
      (t.returned ∨ ∀ later, t.clock + config.drain ≤ later →
        ∃ e, settles (later, e) = true ∧ (t.step config (later, e)).isSome) := by
  have hkept : ProcessKept config s := process_kept hrun
  have hstays : ∀ s a t, ProcessKept config s ∧ s.broadcastAt.isSome → s.step config a = some t →
      ProcessKept config t ∧ t.broadcastAt.isSome :=
    fun _ _ _ h hstep => ⟨h.1.step hstep, broadcast_kept h.2 hstep⟩
  have hcount := exec_countP_le_sum (Process.stepsLeft config) settles brings hstays
    (fun _ _ _ h hstep => processStep_stepsLeft h.1 h.2 hstep) ⟨hkept, hbroadcast⟩ hmore
  have hfirst : s.stepsLeft config ≤ 27 + 5 * s.health.probes.length + s.requests + s.held :=
    process_stepsLeft_le
  refine ⟨by omega, ?_⟩
  obtain ⟨hlast, hstill⟩ := exec_invariant hstays ⟨hkept, hbroadcast⟩ hmore
  by_cases hreturned : t.returned
  · exact Or.inl hreturned
  · exact Or.inr fun later hlater => hlast.goes_on hstill hreturned hlater

end Completion

/-- The signal comes before the workers are spawned, and the grace period passes. -/
def earlySignalRun : List (ℤ × ProcessEvent) :=
  [(0, .main .enter), (0, .main .migrated), (0, .main .chainBuilt), (0, .probe), (1, .signal),
    (15000000001, .graceOver)]

/-- The start goes on all the same, a request comes, and `main` returns. -/
def lateStartRun : List (ℤ × ProcessEvent) :=
  [(15000000001, .main .pacerComplete), (15000000001, .main .enqueued),
    (15000000001, .main .workersSpawned), (15000000001, .task .livePoller .start),
    (15000000001, .main .apiBound), (15000000001, .main .setReady), (15000000001, .main .serve),
    (15000000001, .request), (15000000001, .connect), (15000000002, .probeGoesOn 0 none),
    (15000000002, .healthStopped), (15000000002, .requestDone), (15000000002, .apiStopped),
    (15000000002, .main .join), (15000000003, .task .collectionQueue .start),
    (15000000003, .task .backfill .start), (15000000003, .workersFinished),
    (15000000003, .main .drained), (15000000004, .release), (15000000004, .main .closePool)]

theorem earlySignalRun_enabled :
    (exec (Process.step defaultShutdown) (.start 0) earlySignalRun).isSome := by
  decide +kernel

theorem lateStartRun_enabled :
    (exec (Process.step defaultShutdown) ((exec (Process.step defaultShutdown) (.start 0)
      earlySignalRun).get earlySignalRun_enabled) lateStartRun).isSome := by
  decide +kernel

/-- A probe is under way, and a request and a connection come. -/
theorem shutdown_completes_late_start : lateStartRun.countP settles ≤ 34 :=
  (shutdown_completes (Option.some_get earlySignalRun_enabled).symm (by decide +kernel)
    (Option.some_get lateStartRun_enabled).symm).1

end CryptoCollector.Lifecycle

import CryptoCollector.Lifecycle.Shutdown

/-!
# Runs of a process

A probe is answered 200 only once the process has migrated, spawned its workers, bound its API
and set ready, in that order, and only when the probe came before any shutdown. Shutdown goes
its way in order, too: readiness off, the grace period, the broadcast, the servers, the workers
up to the drain limit, the pool.
-/

namespace CryptoCollector.Lifecycle
open Foundations Health Collectors

structure ProcessKept (config : ShutdownConfig) (s : Process) : Prop where
  start : StartKept s
  shutdown : ShutdownKept config s
  retry : RetryKept s
  health : HealthKept s.health s.clock

section Kept

variable {config : ShutdownConfig} {s t : Process}

theorem ProcessKept.starting (now : ℤ) : ProcessKept config (.start now) :=
  ⟨.start now, .start now, .start now, .new now⟩

theorem healthKept_moved (h : HealthKept s.health s.clock) (hmoved : Moved config s t) :
    HealthKept t.health t.clock := by
  cases hmoved with
  | main hmain =>
    cases hmain with
    | ready _ => exact h.setReady
    | _ => exact h
  | signalled _ => exact h.setShuttingDown
  | probed _ _ _ hkept => exact hkept h
  | _ => exact h

theorem ProcessKept.wait (h : ProcessKept config s) {now : ℤ} (hle : s.clock ≤ now) :
    ProcessKept config { s with clock := now } :=
  ⟨h.start.wait hle, h.shutdown.wait hle, h.retry.wait hle, h.health.wait hle⟩

theorem ProcessKept.moved (h : ProcessKept config s) (hmoved : Moved config s t) :
    ProcessKept config t :=
  ⟨h.start.moved hmoved, h.shutdown.moved h.start hmoved, h.retry.moved h.start hmoved,
    healthKept_moved h.health hmoved⟩

theorem ProcessKept.step (h : ProcessKept config s) {a : ℤ × ProcessEvent}
    (hstep : s.step config a = some t) : ProcessKept config t := by
  simp only [Process.step] at hstep
  split_ifs at hstep with hlater
  exact (h.wait hlater.1).moved (stepNow_moved hstep)

theorem process_kept {now : ℤ} {events : List (ℤ × ProcessEvent)}
    (hrun : exec (Process.step config) (.start now) events = some s) : ProcessKept config s :=
  exec_invariant (fun _ _ _ hkept hstep => hkept.step hstep) (ProcessKept.starting now) hrun

theorem StartKept.milestones (h : StartKept s) {r : ℤ} (hr : r ∈ s.health.state.readyAt) :
    ∃ m ∈ s.migratedAt, ∃ w ∈ s.workersAt, ∃ b ∈ s.boundAt, m ≤ w ∧ w ≤ b ∧ b ≤ r := by
  obtain ⟨b, hb, hbr⟩ := h.ready r hr
  obtain ⟨-, w, hw, hwb⟩ := h.bound b hb
  obtain ⟨-, m, hm, hmw⟩ := h.spawned w hw
  exact ⟨m, hm, w, hw, b, hb, hmw, hwb, hbr⟩

variable {now : ℤ} {events : List (ℤ × ProcessEvent)}

/-- Every answer of 200 came after the service was migrated, worked, listened and was ready, to
a probe from before any shutdown, on a ping that succeeded; a probe that came during a shutdown
is told so, and a process whose start failed never answered 200. -/
theorem readiness_sound (hrun : exec (Process.step config) (.start now) events = some s)
    (answer : Answer) (hanswer : answer ∈ s.health.answers) :
    (answer.result.ok = true →
      (∃ m ∈ s.migratedAt, ∃ w ∈ s.workersAt, ∃ b ∈ s.boundAt, ∃ r ∈ s.health.state.readyAt,
        m ≤ w ∧ w ≤ b ∧ b ≤ r ∧ r ≤ answer.answeredAt) ∧
      (∀ d ∈ s.health.state.shuttingDownAt, answer.began ≤ d) ∧
      answer.PingBacked s.health.pings ∧ s.main ≠ .failed) ∧
    ∀ d ∈ s.health.state.shuttingDownAt, d < answer.began →
      answer.result = shuttingDownResult := by
  have hkept := process_kept hrun
  have hknown := hkept.health.answers answer hanswer
  refine ⟨fun hok => ⟨?_, hknown.open_ hok, hknown.backed hok, ?_⟩, hknown.refused⟩
  · obtain ⟨r, hr, hanswered⟩ := hknown.ready hok
    obtain ⟨m, hm, w, hw, b, hb, hmw, hwb, hbr⟩ := hkept.start.milestones hr
    exact ⟨m, hm, w, hw, b, hb, r, hr, hmw, hwb, hbr, hanswered⟩
  · intro hfailed
    obtain ⟨r, hr, -⟩ := hknown.ready hok
    have hstanding := hkept.start.standing
    rw [hfailed] at hstanding
    simp [hstanding.2] at hr

/-- Probes that do not overlap ping the database at least the lifetime of the cache apart. -/
theorem pings_spaced (hrun : exec (Process.step config) (.start now) events = some s)
    (earlier later : Answer) (hearlier : earlier ∈ s.health.answers)
    (hlater : later ∈ s.health.answers) (hpinged : earlier.pingedAt.isSome)
    (hapart : earlier.answeredAt < later.began) :
    ∀ t ∈ later.pingedAt, earlier.answeredAt + cacheTtl ≤ t := by
  intro t ht
  exact ((process_kept hrun).health.answers later hlater).spaced t ht earlier hearlier hpinged
    hapart

/-- A database that is away holds up the start and does not end it: each attempt comes after the
delay of the ones before, and only a shutdown gives them up. -/
theorem migrations_retried (hrun : exec (Process.step config) (.start now) events = some s) :
    BackedOff s.failures ∧ (∀ m ∈ s.migratedAt, WaitedOut m s.failures) ∧
      (s.returned → s.migratedAt = none → s.broadcastAt.isSome) := by
  have hkept := process_kept hrun
  refine ⟨hkept.retry.attempts, hkept.retry.migrated, ?_⟩
  intro hreturned hnone
  obtain hended | hfailed := hreturned
  · obtain ⟨c, hc⟩ := Option.isSome_iff_exists.mp (hkept.shutdown.ended hended)
    obtain ⟨-, -, -, -, t, ht, -⟩ := hkept.shutdown.closed c hc
    exact Option.isSome_iff_exists.mpr ⟨t, ht⟩
  · have hstanding := hkept.start.standing
    rw [hfailed] at hstanding
    simp [Standing, hnone] at hstanding

theorem broadcast_kept {a : ℤ × ProcessEvent} (hbroadcast : s.broadcastAt.isSome)
    (hstep : s.step config a = some t) : t.broadcastAt.isSome := by
  simp only [Process.step] at hstep
  split_ifs at hstep
  cases stepNow_moved hstep with
  | main hmain => cases hmain <;> exact hbroadcast
  | graceOver _ _ => rfl
  | _ => exact hbroadcast

theorem MainMoved.ended {retries : Bool} {task : BackgroundTask}
    (h : MainMoved config s retries t) (hstopped : (t.supervisors task).phase = .stopped) :
    (s.supervisors task).phase = .stopped := by
  cases h with
  | workersSpawned _ => simp [Supervisor.new] at hstopped
  | _ => exact hstopped

theorem ended_of_stepNow {task : BackgroundTask} {e : ProcessEvent}
    (hstep : s.stepNow config e = some t) (hstopped : (t.supervisors task).phase = .stopped) :
    (s.supervisors task).phase = .stopped ∨ s.broadcastAt.isSome ∨
      e = .task task (.finish .ok) := by
  cases e with
  | task other event =>
    simp only [Process.stepNow] at hstep
    split_ifs at hstep
    obtain ⟨sup, hsup, rfl⟩ := Option.map_eq_some_iff.mp hstep
    by_cases hsame : task = other
    · subst hsame
      simp only [Function.update_self] at hstopped
      obtain hbroadcast | rfl := ended_of_step hsup hstopped
      · exact Or.inr (Or.inl hbroadcast)
      · exact Or.inr (Or.inr rfl)
    · simp only [Function.update_of_ne hsame] at hstopped
      exact Or.inl hstopped
  | main e => exact Or.inl ((mainStep_moved hstep).ended hstopped)
  | graceOver =>
    simp only [Process.stepNow] at hstep
    split at hstep
    · split_ifs at hstep
      obtain rfl := Option.some.inj hstep
      exact Or.inl hstopped
    · cases hstep
  | probeGoesOn i pingError =>
    obtain ⟨health, -, rfl⟩ := Option.map_eq_some_iff.mp hstep
    exact Or.inl hstopped
  | signal | workersFinished | request | requestDone | apiStopped | healthStopped | connect
  | release | probe | probeDropped i =>
    simp only [Process.stepNow] at hstep
    split_ifs at hstep
    obtain rfl := Option.some.inj hstep
    exact Or.inl hstopped

/-- A loop that ends before the shutdown is broadcast does so because its task has returned. -/
theorem ended_loop {task : BackgroundTask} (hrun : exec (Process.step config) s events = some t)
    (hstopped : (t.supervisors task).phase = .stopped) :
    (s.supervisors task).phase = .stopped ∨ t.broadcastAt.isSome ∨
      ∃ a ∈ events, a.2 = .task task (.finish .ok) := by
  induction events generalizing s with
  | nil =>
    obtain rfl : s = t := by simpa using hrun
    exact Or.inl hstopped
  | cons a events ih =>
    obtain ⟨u, hu, hrest⟩ := (exec_cons_eq_some _).mp hrun
    have hstays : u.broadcastAt.isSome → t.broadcastAt.isSome := fun hbroadcast =>
      exec_invariant (fun _ _ _ hsent hstep => broadcast_kept hsent hstep) hbroadcast hrest
    obtain hearlier | hbroadcast | ⟨b, hb, hreturned⟩ := ih hrest
    · have hu' := hu
      simp only [Process.step] at hu'
      split_ifs at hu'
      obtain hbefore | hbroadcast | hreturned := ended_of_stepNow hu' hearlier
      · exact Or.inl hbefore
      · have hsent : s.broadcastAt.isSome := hbroadcast
        exact Or.inr (Or.inl (hstays (broadcast_kept hsent hu)))
      · exact Or.inr (Or.inr ⟨a, List.mem_cons_self, hreturned⟩)
    · exact Or.inr (Or.inl hbroadcast)
    · exact Or.inr (Or.inr ⟨b, List.mem_cons_of_mem _ hb, hreturned⟩)

/-- The service goes on serving for the grace period after it has turned readiness off, and the
servers and the workers stop only then. The workers have finished when each of their loops has
ended, and a loop ends only then or with its task. -/
theorem shutdown_ordered (hrun : exec (Process.step config) (.start now) events = some s) :
    (∀ t ∈ s.broadcastAt, ∃ d ∈ s.health.state.shuttingDownAt, d + config.grace ≤ t) ∧
      (s.api = .stopped ∨ s.workers = .finished ∨ s.healthServing = false →
        s.broadcastAt.isSome) ∧
      (s.health.state.readyAt.isSome → s.broadcastAt = none →
        s.api = .bound ∨ s.api = .serving) ∧
      (s.workers = .finished →
        ∀ task ∈ config.workers, (s.supervisors task).phase = .stopped) ∧
      ∀ task, (s.supervisors task).phase = .stopped →
        s.broadcastAt.isSome ∨ ∃ a ∈ events, a.2 = .task task (.finish .ok) := by
  have hkept := process_kept hrun
  refine ⟨?_, hkept.shutdown.stopped, ?_, hkept.shutdown.drained, ?_⟩
  · intro t ht
    have horchestrator := hkept.shutdown.orchestrator
    cases hphase : s.orchestrator <;> rw [hphase] at horchestrator
    · simp [horchestrator.2] at ht
    · simp [horchestrator.2] at ht
    · obtain ⟨d, hd, u, hu, hgrace, -⟩ := horchestrator
      obtain rfl := Option.mem_unique hu ht
      exact ⟨d, hd, hgrace⟩
  · intro hready hbroadcast
    obtain ⟨r, hr⟩ := Option.isSome_iff_exists.mp hready
    obtain ⟨b, hb, -⟩ := hkept.start.ready r hr
    have hlistening : s.api ≠ .unbound := by
      intro hunbound
      have hnone := hkept.start.api.mp hunbound
      simp [hnone] at hb
    have hgoing : s.api ≠ .stopped := by
      intro hstopped
      have hsome := hkept.shutdown.stopped (.inl hstopped)
      simp [hbroadcast] at hsome
    cases hapi : s.api <;> simp_all
  · intro task hstopped
    obtain hnew | hended := ended_loop hrun hstopped
    · simp [Process.start, Supervisor.new] at hnew
    · exact hended

/-- The pool is closed last: the servers are through, no probe is under way and no connection is
out, and either nothing was ever started or the API has answered all its requests and the workers
have finished or had the drain limit to do so. -/
theorem pool_closed_last (hrun : exec (Process.step config) (.start now) events = some s)
    (c : ℤ) (hclosed : c ∈ s.closedAt) :
    s.main = .ended ∧ s.healthServing = false ∧ s.health.probes = [] ∧ s.held = 0 ∧
      ∃ t ∈ s.broadcastAt, t ≤ c ∧ (s.workersAt = none ∧ s.boundAt = none ∨
        s.api = .stopped ∧ s.requests = 0 ∧ ∃ j ∈ s.joinedAt, t ≤ j ∧
          (s.workers = .finished ∨ j + config.drain ≤ c)) := by
  have hkept := (process_kept hrun).shutdown
  obtain ⟨hmain, hheld, -, ⟨hjoined, hrest⟩, t, ht, htc⟩ := hkept.closed c hclosed
  refine ⟨hmain, hjoined.1, hkept.emptied hjoined.1, hheld, t, ht, htc, ?_⟩
  obtain hnothing | ⟨j, hj, hdrained⟩ := hrest
  · exact Or.inl hnothing
  · obtain ⟨-, -, hstopped, u, hu, huj⟩ := hkept.joined j hj
    obtain rfl := Option.mem_unique hu ht
    exact Or.inr ⟨hstopped, hkept.answered hstopped, j, hj, huj, hdrained⟩

end Kept

/-- The defaults, with no alarm center. -/
def defaultShutdown : ShutdownConfig := ⟨15 * 1000000000, 30 * 1000000000, false⟩

/-- The database is away at first. One probe comes too early; then one pings, one is answered out
of the cache, and one pings again. -/
def servingRun : List (ℤ × ProcessEvent) :=
  [(0, .probe), (0, .main .enter), (5, .main .migrationFailed), (6, .probeGoesOn 0 none),
    (7, .probeGoesOn 0 none), (1000000005, .main .wake), (1000000006, .main .migrated),
    (1000000007, .main .chainBuilt), (1000000008, .main .pacerComplete),
    (1000000009, .main .enqueued), (1000000010, .main .workersSpawned),
    (1000000010, .task .livePoller .start), (1000000010, .task .backfill .start),
    (1000000011, .main .apiBound), (1000000012, .main .setReady), (1000000013, .main .serve),
    (2000000000, .probe), (2000000001, .probeGoesOn 0 none), (2000000002, .probeGoesOn 0 none),
    (2000000003, .probeGoesOn 0 none), (2000000004, .probeGoesOn 0 none),
    (2000000005, .probeGoesOn 0 none), (3000000000, .probe), (3000000001, .probeGoesOn 0 none),
    (3000000002, .probeGoesOn 0 none), (3000000003, .probeGoesOn 0 none), (4000000006, .probe),
    (4000000007, .probeGoesOn 0 none), (4000000008, .probeGoesOn 0 none),
    (4000000009, .probeGoesOn 0 none), (4000000010, .probeGoesOn 0 none),
    (4000000011, .probeGoesOn 0 none)]

/-- The signal comes while a request is answered, and a worker that has a connection never
finishes. -/
def stoppingRun : List (ℤ × ProcessEvent) :=
  [(4500000000, .connect), (4900000000, .request), (5000000000, .signal), (20000000000, .graceOver),
    (20000000001, .task .livePoller (.finish .ok)), (20000000001, .requestDone),
    (20000000001, .apiStopped), (20000000002, .healthStopped), (20000000003, .main .join),
    (50000000003, .main .drainTimedOut), (50000000004, .release), (50000000004, .main .closePool)]

theorem servingRun_enabled :
    (exec (Process.step defaultShutdown) (.start 0) (servingRun ++ stoppingRun)).isSome := by
  decide +kernel

def servedProcess : Process :=
  (exec (Process.step defaultShutdown) (.start 0) (servingRun ++ stoppingRun)).get
    servingRun_enabled

/-- The second probe's answer comes out of the cache. -/
theorem readiness_sound_cached :
    (⟨3000000000, 3000000003, ⟨true, []⟩, .cached ⟨⟨true, []⟩, 2000000004, 2000000005⟩⟩ :
      Answer).PingBacked servedProcess.health.pings :=
  ((readiness_sound (Option.some_get servingRun_enabled).symm _ (by decide +kernel)).1
    rfl).2.2.1

theorem pings_spaced_serving : 2000000005 + cacheTtl ≤ 4000000010 :=
  pings_spaced (Option.some_get servingRun_enabled).symm
    ⟨2000000000, 2000000005, ⟨true, []⟩, .ping 2000000004⟩
    ⟨4000000006, 4000000011, ⟨true, []⟩, .ping 4000000010⟩
    (by decide +kernel) (by decide +kernel) rfl (by decide) _ rfl

theorem migrations_retried_serving : BackedOff servedProcess.failures :=
  (migrations_retried (Option.some_get servingRun_enabled).symm).1

theorem shutdown_ordered_stopping :
    ∃ d ∈ servedProcess.health.state.shuttingDownAt, d + defaultShutdown.grace ≤ 20000000000 :=
  (shutdown_ordered (Option.some_get servingRun_enabled).symm).1 20000000000 (by decide +kernel)

theorem pool_closed_last_stopping :
    servedProcess.healthServing = false ∧ servedProcess.health.probes = [] ∧
      servedProcess.held = 0 :=
  have h := pool_closed_last (Option.some_get servingRun_enabled).symm 50000000004
    (by decide +kernel)
  ⟨h.2.1, h.2.2.1, h.2.2.2.1⟩

end CryptoCollector.Lifecycle

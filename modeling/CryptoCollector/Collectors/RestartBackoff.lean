import CryptoCollector.Collectors.Supervisor

/-!
# How long and how often a failing task is restarted

The delay after a failed run is a function of the runs since the last one that
was up long enough. A task that keeps failing is started at most once every 18.2
seconds in the long run, however its uptimes are chosen: what the delays fall
short of that is made good by the ones before or by the uptime that resets them.
-/

namespace CryptoCollector.Collectors
open Foundations Alarm

/-- How many runs came after the last one that reset the delay, or after the
first; uptimes newest first. -/
def runsSinceReset : List ℕ → ℕ
  | [] => 0
  | uptime :: older =>
    if uptime ≥ superviseHealthyReset ∨ older = [] then 0 else runsSinceReset older + 1

/-- The delay after the newest of the runs. -/
def scheduledDelay (uptimes : List ℕ) : ℕ :=
  min (superviseInitialBackoff * 2 ^ runsSinceReset uptimes) superviseMaxBackoff

/-- The delays after each of the runs, newest first. -/
def scheduledDelays : List ℕ → List ℕ
  | [] => []
  | uptime :: older => scheduledDelay (uptime :: older) :: scheduledDelays older

/-- The `backoff` of the loop after the runs. -/
def scheduledBackoff : List ℕ → ℕ
  | [] => superviseInitialBackoff
  | uptime :: older => nextBackoff (scheduledDelay (uptime :: older))

theorem scheduledBackoff_eq {uptime : ℕ} {older : List ℕ} :
    scheduledBackoff (uptime :: older) =
      min (superviseInitialBackoff * 2 ^ (runsSinceReset (uptime :: older) + 1))
        superviseMaxBackoff := by
  rw [pow_succ, ← mul_assoc]
  exact doubled_min (Nat.zero_le _) _

theorem superviseNextDelay_scheduled (uptime : ℕ) (older : List ℕ) :
    superviseNextDelay (scheduledBackoff older) uptime =
      (scheduledDelay (uptime :: older), scheduledBackoff (uptime :: older)) := by
  have hinitial : superviseInitialBackoff ≤ superviseMaxBackoff := by decide
  have hdelay : (superviseNextDelay (scheduledBackoff older) uptime).1 =
      scheduledDelay (uptime :: older) := by
    by_cases hhealthy : uptime ≥ superviseHealthyReset
    · simp [superviseNextDelay, scheduledDelay, runsSinceReset, hhealthy, hinitial]
    · cases older with
      | nil =>
        simp [superviseNextDelay, scheduledDelay, runsSinceReset, hhealthy, scheduledBackoff,
          hinitial]
      | cons previous older =>
        rw [scheduledBackoff_eq]
        simp [superviseNextDelay, scheduledDelay, runsSinceReset, hhealthy]
  calc superviseNextDelay (scheduledBackoff older) uptime
      = ((superviseNextDelay (scheduledBackoff older) uptime).1,
          nextBackoff (superviseNextDelay (scheduledBackoff older) uptime).1) := rfl
    _ = _ := by rw [hdelay]; rfl

/-- The start of the run the loop is in, or has just seen fail. -/
def SupervisorPhase.current : SupervisorPhase → Option ℤ
  | .running started => some started
  | .failed started _ => some started
  | .ready _ | .stopped => none

/-- What the log of a loop keeps to: its delays are the scheduled ones, and no
later start falls into a delay. -/
structure Scheduled (clock : ℤ) (sup : Supervisor) : Prop where
  backoff : sup.backoff = scheduledBackoff (sup.failures.map FailedRun.uptime)
  delays : sup.failures.map FailedRun.delay =
    scheduledDelays (sup.failures.map FailedRun.uptime)
  waits : ∀ run ∈ sup.failures, ∀ start ∈ sup.starts, run.started < start → run.resumes ≤ start
  past : ∀ start ∈ sup.starts, start ≤ clock
  awake : ∀ wakesAt, sup.phase = .ready wakesAt → ∀ run ∈ sup.failures, run.resumes ≤ wakesAt
  newest : ∀ started ∈ sup.phase.current, ∀ start ∈ sup.starts, start ≤ started
  current : ∀ started ∈ sup.phase.current, started ≤ clock ∧
    ∀ run ∈ sup.failures, run.resumes ≤ started

theorem Scheduled.new (now : ℤ) : Scheduled now (Supervisor.new now) where
  backoff := rfl
  delays := rfl
  waits := by simp [Supervisor.new]
  past := by simp [Supervisor.new]
  awake := by simp [Supervisor.new]
  newest := by simp [Supervisor.new, SupervisorPhase.current]
  current := by simp [Supervisor.new, SupervisorPhase.current]

theorem Scheduled.wait {clock now : ℤ} {sup : Supervisor} (h : Scheduled clock sup)
    (hclock : clock ≤ now) : Scheduled now sup where
  backoff := h.backoff
  delays := h.delays
  waits := h.waits
  past := fun start hstart => (h.past start hstart).trans hclock
  awake := h.awake
  newest := h.newest
  current := fun started hcurrent =>
    ⟨(h.current started hcurrent).1.trans hclock, (h.current started hcurrent).2⟩

theorem Scheduled.stop {clock : ℤ} {sup : Supervisor} (h : Scheduled clock sup) :
    Scheduled clock { sup with phase := .stopped } where
  backoff := h.backoff
  delays := h.delays
  waits := h.waits
  past := h.past
  awake := by simp
  newest := by simp [SupervisorPhase.current]
  current := by simp [SupervisorPhase.current]

theorem Scheduled.start {shutdown : Bool} {clock now wakesAt : ℤ} {sup : Supervisor}
    (h : Scheduled clock sup) (hclock : clock ≤ now) (hphase : sup.phase = .ready wakesAt)
    (hwake : wakesAt ≤ now) : Scheduled now (sup.start shutdown now) := by
  have hresumed : ∀ run ∈ sup.failures, run.resumes ≤ now := by
    intro run hrun
    exact (h.awake wakesAt hphase run hrun).trans hwake
  unfold Supervisor.start
  split_ifs
  · exact (h.wait hclock).stop
  · refine ⟨h.backoff, h.delays, ?_, ?_, by simp, ?_, ?_⟩
    · intro run hrun start hstart hlater
      rcases List.mem_cons.mp hstart with rfl | hold
      · exact hresumed run hrun
      · exact h.waits run hrun start hold hlater
    · intro start hstart
      rcases List.mem_cons.mp hstart with rfl | hold
      · exact le_rfl
      · exact (h.past start hold).trans hclock
    · intro started hcurrent start hstart
      obtain rfl : now = started := by simpa [SupervisorPhase.current] using hcurrent
      rcases List.mem_cons.mp hstart with rfl | hold
      · exact le_rfl
      · exact (h.past start hold).trans hclock
    · intro started hcurrent
      obtain rfl : now = started := by simpa [SupervisorPhase.current] using hcurrent
      exact ⟨le_rfl, hresumed⟩

theorem Scheduled.finish {shutdown : Bool} {clock now started : ℤ} {result : TaskEnd}
    {sup : Supervisor} (h : Scheduled clock sup) (hclock : clock ≤ now)
    (hphase : sup.phase = .running started) :
    Scheduled now (sup.finish shutdown now started result) := by
  have hnow := h.wait hclock
  unfold Supervisor.finish
  split_ifs
  · exact hnow.stop
  · have hcurrent : sup.phase.current = some started := by rw [hphase]; rfl
    refine ⟨h.backoff, h.delays, h.waits, hnow.past, by simp, ?_, ?_⟩
    · intro other hother start hstart
      obtain rfl : started = other := by simpa [SupervisorPhase.current] using hother
      exact h.newest started hcurrent start hstart
    · intro other hother
      obtain rfl : started = other := by simpa [SupervisorPhase.current] using hother
      exact hnow.current started hcurrent

theorem saturatingDurationSince_eq {now earlier : ℤ} (h : earlier ≤ now) :
    (saturatingDurationSince now earlier : ℤ) = now - earlier := by
  unfold saturatingDurationSince
  omega

theorem Scheduled.backOff {clock now started recorded : ℤ} {sup : Supervisor}
    (h : Scheduled clock sup) (hclock : clock ≤ now)
    (hphase : sup.phase = .failed started recorded) :
    Scheduled now (sup.backOff now started) := by
  have hcurrent : sup.phase.current = some started := by rw [hphase]; rfl
  obtain ⟨hstarted, hresumed⟩ := h.current started hcurrent
  have hdecision := superviseNextDelay_scheduled (saturatingDurationSince now started)
    (sup.failures.map FailedRun.uptime)
  rw [← h.backoff] at hdecision
  refine ⟨?_, ?_, ?_, fun start hstart => (h.past start hstart).trans hclock, ?_,
    by simp [Supervisor.backOff, SupervisorPhase.current],
    by simp [Supervisor.backOff, SupervisorPhase.current]⟩
  · simp [Supervisor.backOff, hdecision]
  · simp [Supervisor.backOff, hdecision, scheduledDelays, h.delays]
  · intro run hrun start hstart hlater
    rcases List.mem_cons.mp hrun with rfl | hold
    · exact absurd hlater (not_lt.mpr (h.newest started hcurrent start hstart))
    · exact h.waits run hold start hstart hlater
  · intro wakesAt hready run hrun
    have huptime := saturatingDurationSince_eq (hstarted.trans hclock)
    obtain rfl : now + ((superviseNextDelay sup.backoff (saturatingDurationSince now started)).1 :
        ℤ) = wakesAt := by simpa [Supervisor.backOff] using hready
    rcases List.mem_cons.mp hrun with rfl | hold
    · simp only [FailedRun.resumes]
      omega
    · have hrun := hresumed run hold
      omega

theorem Scheduled.step {shutdown : Bool} {clock now : ℤ} {sup sup' : Supervisor}
    {event : SupervisorEvent} (h : Scheduled clock sup) (hclock : clock ≤ now)
    (hstep : sup.step shutdown now event = some sup') : Scheduled now sup' := by
  rcases Supervisor.step_cases hstep with ⟨wakesAt, -, hphase, hwake, rfl⟩ |
    ⟨result, started, -, hphase, rfl⟩ | ⟨started, recorded, -, hphase, rfl⟩
  · exact h.start hclock hphase hwake
  · exact h.finish hclock hphase
  · exact h.backOff hclock hphase

/-- Whatever the uptimes were: each delay is the initial one doubled once for each
run since the last reset, up to the cap, and no start falls into a delay. -/
theorem restart_delays_exact (start : ℤ) (as : List SuperviseAction) (t : Supervision)
    (task : BackgroundTask) (hrun : exec superviseStep (.new start) as = some t) :
    (t.tasks task).failures.map FailedRun.delay =
        scheduledDelays ((t.tasks task).failures.map FailedRun.uptime) ∧
      ∀ run ∈ (t.tasks task).failures, ∀ next ∈ (t.tasks task).starts,
        run.started < next → run.resumes ≤ next := by
  have hscheduled : Scheduled t.clock (t.tasks task) :=
    task_invariant (C := fun _ _ => True) (fun s a _ h hclock => h.wait hclock)
      (fun s a event sup _ h hclock _ hstep => h.step hclock hstep) (Scheduled.new start)
      (stepsMeet_of_forall superviseStep (fun _ _ _ => trivial) _) hrun
  exact ⟨hscheduled.delays, hscheduled.waits⟩

/-- The live poller is started at `begun` and fails at once. -/
def crashAt (begun : ℤ) : List SuperviseAction :=
  [.task begun .livePoller .start, .task begun .livePoller (.finish .error),
    .task begun .livePoller .backOff]

/-- A poller that always fails at once, started as soon as it may be. -/
def fastCrashes : List SuperviseAction :=
  [0, 1000000000, 3000000000, 7000000000, 15000000000, 31000000000].flatMap crashAt

theorem fastCrashes_enabled :
    ∃ t, exec superviseStep (.new 0) fastCrashes = some t ∧ (t.tasks .livePoller).starts =
      [31000000000, 15000000000, 7000000000, 3000000000, 1000000000, 0] := by
  have hlog : (exec superviseStep (.new 0) fastCrashes).map
      (fun t => (t.tasks .livePoller).starts) =
        some [31000000000, 15000000000, 7000000000, 3000000000, 1000000000, 0] := by
    decide +kernel
  exact Option.map_eq_some_iff.mp hlog

theorem restart_delays_exact_fast_crashes :
    ∃ t, exec superviseStep (.new 0) fastCrashes = some t ∧
      ((t.tasks .livePoller).failures.map FailedRun.delay =
          scheduledDelays ((t.tasks .livePoller).failures.map FailedRun.uptime) ∧
        ∀ run ∈ (t.tasks .livePoller).failures, ∀ next ∈ (t.tasks .livePoller).starts,
          run.started < next → run.resumes ≤ next) := by
  obtain ⟨t, hrun, -⟩ := fastCrashes_enabled
  exact ⟨t, hrun, restart_delays_exact 0 fastCrashes t .livePoller hrun⟩

/-! ### The restart storm -/

def backoffLevel (k : ℕ) : ℕ := min (superviseInitialBackoff * 2 ^ k) superviseMaxBackoff

/-- What a loop that has doubled its delay `k` times may have overdrawn, when each
start costs 91 and a second pays 5; in nanoseconds. -/
def stormCredit : ℕ → ℤ
  | 0 => 0
  | 1 => 86000000000
  | 2 => 167000000000
  | 3 => 238000000000
  | 4 => 289000000000
  | _ => 300000000000

theorem stormCredit_le (k : ℕ) : stormCredit k ≤ 300000000000 := by
  unfold stormCredit
  split <;> norm_num

theorem stormCredit_nonneg (k : ℕ) : 0 ≤ stormCredit k := by
  unfold stormCredit
  split <;> norm_num

/-- A failed run and the delay after it pay for a start: the credit after them is
that of the next level. -/
theorem stormCredit_pays {k : ℕ} (hk : k ≤ 5) (uptime : ℕ) :
    ∃ k' ≤ 5, (superviseNextDelay (backoffLevel k) uptime).2 = backoffLevel k' ∧
      91000000000 + stormCredit k ≤
        5 * ((uptime : ℤ) + (superviseNextDelay (backoffLevel k) uptime).1) + stormCredit k' := by
  by_cases hhealthy : uptime ≥ superviseHealthyReset
  · refine ⟨1, by norm_num, by simp [superviseNextDelay, hhealthy]; decide, ?_⟩
    have hcredit := stormCredit_le k
    have hup : (60000000000 : ℤ) ≤ uptime := by exact_mod_cast hhealthy
    have hone : stormCredit 1 = 86000000000 := rfl
    simp only [superviseNextDelay, if_pos hhealthy, superviseInitialBackoff, hone]
    push_cast
    linarith
  · refine ⟨min (k + 1) 5, min_le_right _ _, ?_⟩
    simp only [superviseNextDelay, if_neg hhealthy]
    have hup : (0 : ℤ) ≤ uptime := Int.natCast_nonneg uptime
    interval_cases k
    all_goals
      refine ⟨by decide, ?_⟩
      norm_num [stormCredit, backoffLevel, superviseInitialBackoff, superviseMaxBackoff]
      try linarith

/-- What the starts of a loop have cost so far, and what the delay still pays. -/
structure StormPaid (clock : ℤ) (sup : Supervisor) (k : ℕ) : Prop where
  level : k ≤ 5
  backoff : sup.backoff = backoffLevel k
  paid : PaidFor 91000000000 5 300000000000 sup.starts
  asleep : ∀ wakesAt, sup.phase = .ready wakesAt →
    PaidBy 91000000000 5 (stormCredit k) wakesAt sup.starts
  current : ∀ started ∈ sup.phase.current, started ≤ clock ∧ ∃ older,
    sup.starts = started :: older ∧ PaidBy 91000000000 5 (stormCredit k) started older

theorem StormPaid.new (now : ℤ) : StormPaid now (Supervisor.new now) 0 where
  level := by norm_num
  backoff := rfl
  paid := PaidFor.nil
  asleep := fun _ _ => PaidBy.nil
  current := by simp [Supervisor.new, SupervisorPhase.current]

theorem StormPaid.wait {clock now : ℤ} {sup : Supervisor} {k : ℕ} (h : StormPaid clock sup k)
    (hclock : clock ≤ now) : StormPaid now sup k where
  level := h.level
  backoff := h.backoff
  paid := h.paid
  asleep := h.asleep
  current := fun started hcurrent =>
    ⟨(h.current started hcurrent).1.trans hclock, (h.current started hcurrent).2⟩

theorem StormPaid.stop {clock : ℤ} {sup : Supervisor} {k : ℕ} (h : StormPaid clock sup k) :
    StormPaid clock { sup with phase := .stopped } k where
  level := h.level
  backoff := h.backoff
  paid := h.paid
  asleep := by simp
  current := by simp [SupervisorPhase.current]

theorem StormPaid.start {shutdown : Bool} {clock now wakesAt : ℤ} {sup : Supervisor} {k : ℕ}
    (h : StormPaid clock sup k) (hclock : clock ≤ now) (hphase : sup.phase = .ready wakesAt)
    (hwake : wakesAt ≤ now) : StormPaid now (sup.start shutdown now) k := by
  have hasleep : PaidBy 91000000000 5 (stormCredit k) now sup.starts :=
    (h.asleep wakesAt hphase).wait (by linarith)
  unfold Supervisor.start
  split_ifs
  · exact (h.wait hclock).stop
  · have howed : PaidBy 91000000000 5 300000000000 now sup.starts :=
      hasleep.wait (by linarith [stormCredit_le k])
    refine ⟨h.level, h.backoff, h.paid.cons howed, by simp, ?_⟩
    intro started hcurrent
    obtain rfl : now = started := by simpa [SupervisorPhase.current] using hcurrent
    exact ⟨le_rfl, sup.starts, rfl, hasleep⟩

theorem StormPaid.finish {shutdown : Bool} {clock now started : ℤ} {result : TaskEnd}
    {sup : Supervisor} {k : ℕ} (h : StormPaid clock sup k) (hclock : clock ≤ now)
    (hphase : sup.phase = .running started) :
    StormPaid now (sup.finish shutdown now started result) k := by
  have hnow := h.wait hclock
  unfold Supervisor.finish
  split_ifs
  · exact hnow.stop
  · refine ⟨h.level, h.backoff, h.paid, by simp, ?_⟩
    intro other hother
    obtain rfl : started = other := by simpa [SupervisorPhase.current] using hother
    exact hnow.current started (by rw [hphase]; rfl)

theorem StormPaid.backOff {clock now started recorded : ℤ} {sup : Supervisor} {k : ℕ}
    (h : StormPaid clock sup k) (hclock : clock ≤ now)
    (hphase : sup.phase = .failed started recorded) :
    ∃ k', StormPaid now (sup.backOff now started) k' := by
  obtain ⟨hstarted, older, hstarts, howed⟩ := h.current started (by rw [hphase]; rfl)
  have huptime := saturatingDurationSince_eq (hstarted.trans hclock)
  obtain ⟨k', hk', hnext, hpays⟩ :=
    stormCredit_pays h.level (saturatingDurationSince now started)
  rw [← h.backoff] at hnext hpays
  refine ⟨k', hk', hnext, h.paid, ?_, by simp [Supervisor.backOff, SupervisorPhase.current]⟩
  intro wakesAt hready
  obtain rfl : now + ((superviseNextDelay sup.backoff (saturatingDurationSince now started)).1 :
      ℤ) = wakesAt := by simpa [Supervisor.backOff] using hready
  have hstarts' : (sup.backOff now started).starts = started :: older := hstarts
  rw [hstarts']
  refine howed.cons (by norm_num) (stormCredit_nonneg k) ?_
  rw [huptime] at hpays
  linarith

theorem StormPaid.step {shutdown : Bool} {clock now : ℤ} {sup sup' : Supervisor}
    {event : SupervisorEvent} (h : ∃ k, StormPaid clock sup k) (hclock : clock ≤ now)
    (hstep : sup.step shutdown now event = some sup') : ∃ k, StormPaid now sup' k := by
  obtain ⟨k, hk⟩ := h
  rcases Supervisor.step_cases hstep with ⟨wakesAt, -, hphase, hwake, rfl⟩ |
    ⟨result, started, -, hphase, rfl⟩ | ⟨started, recorded, -, hphase, rfl⟩
  · exact ⟨k, hk.start hclock hphase hwake⟩
  · exact ⟨k, hk.finish hclock hphase⟩
  · exact hk.backOff hclock hphase

/-- However a task fails, a window of `span` seconds holds at most
`(5 * span + 391) / 91` of its starts. -/
theorem restart_storm_bounded (start : ℤ) (as : List SuperviseAction) (t : Supervision)
    (task : BackgroundTask) (hrun : exec superviseStep (.new start) as = some t) (opens : ℤ)
    (span : ℕ) :
    91000000000 * ((t.tasks task).starts.countP fun begun =>
        decide (opens ≤ begun ∧ begun ≤ opens + span) : ℤ) ≤ 5 * span + 391000000000 := by
  obtain ⟨k, hk⟩ : ∃ k, StormPaid t.clock (t.tasks task) k :=
    task_invariant (I := fun clock sup => ∃ k, StormPaid clock sup k) (C := fun _ _ => True)
      (fun s a _ h hclock => h.imp fun k hk => hk.wait hclock)
      (fun s a event sup _ h hclock _ hstep => StormPaid.step h hclock hstep)
      ⟨0, StormPaid.new start⟩
      (stepsMeet_of_forall superviseStep (fun _ _ _ => trivial) _) hrun
  have hcount := hk.paid.countP_window (by norm_num) (by norm_num) (by norm_num) opens
    (Int.natCast_nonneg span)
  linarith

/-- Six starts in the first 31 seconds: the bound is attained. -/
theorem restart_storm_bounded_fast_crashes :
    ∃ t, exec superviseStep (.new 0) fastCrashes = some t ∧
      (t.tasks .livePoller).starts.length = 6 ∧
      91000000000 * ((t.tasks .livePoller).starts.countP fun begun =>
        decide (0 ≤ begun ∧ begun ≤ 0 + ((31000000000 : ℕ) : ℤ)) : ℤ) ≤
          5 * ((31000000000 : ℕ) : ℤ) + 391000000000 := by
  obtain ⟨t, hrun, hstarts⟩ := fastCrashes_enabled
  exact ⟨t, hrun, by rw [hstarts]; rfl,
    restart_storm_bounded 0 fastCrashes t .livePoller hrun 0 31000000000⟩

/-! ### The shutdown -/

/-- How many of its events a loop has left once the shutdown is broadcast. -/
def SupervisorPhase.eventsLeft : SupervisorPhase → ℕ
  | .ready _ => 1
  | .running _ => 1
  | .failed _ _ => 2
  | .stopped => 0

theorem step_after_shutdown {now : ℤ} {sup sup' : Supervisor} {event : SupervisorEvent}
    (h : sup.step true now event = some sup') :
    sup'.starts = sup.starts ∧ sup'.restarts = sup.restarts ∧
      sup'.phase.eventsLeft + 1 = sup.phase.eventsLeft := by
  rcases Supervisor.step_cases h with ⟨wakesAt, -, hphase, -, rfl⟩ |
    ⟨result, started, -, hphase, rfl⟩ | ⟨started, recorded, -, hphase, rfl⟩
  · simp [Supervisor.start, hphase, SupervisorPhase.eventsLeft]
  · simp [Supervisor.finish, hphase, SupervisorPhase.eventsLeft]
  · simp [Supervisor.backOff, hphase, SupervisorPhase.eventsLeft]

/-- A loop ends at a shutdown, or when its task has returned of itself. -/
theorem ended_of_step {shutdown : Bool} {now : ℤ} {sup sup' : Supervisor} {event : SupervisorEvent}
    (h : sup.step shutdown now event = some sup') (hstopped : sup'.phase = .stopped) :
    shutdown = true ∨ event = .finish .ok := by
  rcases Supervisor.step_cases h with ⟨wakesAt, -, -, -, rfl⟩ | ⟨result, started, rfl, -, rfl⟩ |
    ⟨started, recorded, -, -, rfl⟩
  · cases shutdown with
    | true => exact Or.inl rfl
    | false => simp [Supervisor.start] at hstopped
  · cases shutdown with
    | true => exact Or.inl rfl
    | false => cases result <;> simp [Supervisor.finish] at hstopped ⊢
  · simp [Supervisor.backOff] at hstopped

/-- Once the shutdown is broadcast no task is started or recorded again, and a loop
is stopped after its next event, or after two when a restart was just recorded. -/
theorem shutdown_ends_supervision (s t : Supervision) (as : List SuperviseAction)
    (task : BackgroundTask) (hshutdown : s.shutdown = true)
    (hrun : exec superviseStep s as = some t) :
    (t.tasks task).starts = (s.tasks task).starts ∧
      (t.tasks task).restarts = (s.tasks task).restarts ∧
      (t.tasks task).phase.eventsLeft + as.countP (SuperviseAction.of task) =
        (s.tasks task).phase.eventsLeft := by
  induction as generalizing s with
  | nil =>
    obtain rfl : s = t := by simpa using hrun
    exact ⟨rfl, rfl, rfl⟩
  | cons a as ih =>
    obtain ⟨u, hu, hrest⟩ := (exec_cons_eq_some superviseStep).mp hrun
    have hflag : u.shutdown = true := by
      obtain ⟨-, -, ⟨-, -, -, -, -, hsame, -, -⟩ | ⟨-, hset, -⟩ | ⟨-, -, hsame, -⟩⟩ :=
        superviseStep_cases hu
      · exact hsame.trans hshutdown
      · exact hset
      · exact hsame.trans hshutdown
    obtain ⟨hstarts, hrestarts, hleft⟩ := ih u hflag hrest
    rw [hstarts, hrestarts]
    rcases superviseStep_task hu task with ⟨event, ha, hsup⟩ | ⟨hother, hsame⟩
    · rw [hshutdown] at hsup
      obtain ⟨hstarts', hrestarts', hleft'⟩ := step_after_shutdown hsup
      have hown : SuperviseAction.of task a = true := by rw [ha]; simp [SuperviseAction.of]
      rw [List.countP_cons_of_pos hown]
      exact ⟨hstarts', hrestarts', by omega⟩
    · rw [List.countP_cons_of_neg (by simp [hother]), hsame]
      exact ⟨rfl, rfl, by rw [hleft, hsame]⟩

/-- The broadcast comes while the live poller runs. -/
theorem shutdown_ends_supervision_running :
    ∃ s t, exec superviseStep (.new 0) [.task 0 .livePoller .start, .shutdown 5] = some s ∧
      exec superviseStep s [.task 7 .livePoller (.finish .error)] = some t ∧
      ((t.tasks .livePoller).starts = (s.tasks .livePoller).starts ∧
        (t.tasks .livePoller).restarts = (s.tasks .livePoller).restarts ∧
        (t.tasks .livePoller).phase.eventsLeft + 1 = (s.tasks .livePoller).phase.eventsLeft) := by
  refine ⟨_, _, rfl, rfl, ?_⟩
  exact shutdown_ends_supervision _ _ [.task 7 .livePoller (.finish .error)] .livePoller rfl rfl

end CryptoCollector.Collectors

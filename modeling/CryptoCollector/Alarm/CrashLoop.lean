import CryptoCollector.Alarm.Reconciler
import CryptoCollector.Collectors.RestartBackoff

/-!
# The crash-loop alarm

The supervisors record every restart of a worker in the registry, and a sweep
counts those in a window before its own reading of the clock. Restarts are a
delay and an uptime apart, so a worker that keeps failing soon enough is reported
at every sweep, and one that stays up long enough at none.
-/

namespace CryptoCollector.Alarm
open Foundations Providers Collectors

/-! ### What the registry keeps of the restarts -/

/-- The events of a worker in the registry; restarts newest first. -/
def registryEvents : List ℤ → List ℤ
  | [] => []
  | newest :: older =>
    ((newest :: older).filter fun t =>
      saturatingDurationSince newest t < workerRestartRetention).reverse

/-- The registry has the restarts of every worker it is given to. -/
structure FollowsRestarts (s : Supervision) : Prop where
  past : ∀ task, ∀ r ∈ (s.tasks task).restarts, r ≤ s.clock
  entry : ∀ task : BackgroundTask, task.registered = true →
    (s.registry.workerRestarts.lookup task.name).map Prod.snd =
      if (s.tasks task).restarts = [] then none else some (registryEvents (s.tasks task).restarts)

theorem FollowsRestarts.new (start : ℤ) : FollowsRestarts (.new start) where
  past := by simp [Supervision.new, Supervisor.new]
  entry := fun _ _ => rfl

theorem workerRestarts_record (now : ℤ) (poke : HealthPoke) (reg : HealthRegistry) :
    (reg.record now poke).workerRestarts = reg.workerRestarts := by
  cases poke <;> rfl

theorem lookup_recordWorkerRestart (reg : HealthRegistry) (now : ℤ) (worker other : String) :
    ((reg.recordWorkerRestart now worker).workerRestarts.lookup other).map Prod.snd =
      if other = worker then
        some ((((reg.workerRestarts.lookup worker).map Prod.snd).getD [] ++ [now]).filter fun t =>
          saturatingDurationSince now t < workerRestartRetention)
      else
        (reg.workerRestarts.lookup other).map Prod.snd := by
  simp only [HealthRegistry.recordWorkerRestart, KeyedTable.lookup_upsert]
  split_ifs with hname
  · cases reg.workerRestarts.lookup other <;> simp [KeyedTable.overwrite]
  · rfl

theorem saturatingDurationSince_self (now : ℤ) : saturatingDurationSince now now = 0 := by
  simp [saturatingDurationSince]

/-- An event that was pruned is pruned at every later restart. -/
theorem registryEvents_cons {now : ℤ} {restarts : List ℤ} (hlater : ∀ t ∈ restarts, t ≤ now) :
    registryEvents (now :: restarts) =
      (registryEvents restarts ++ [now]).filter fun t =>
        saturatingDurationSince now t < workerRestartRetention := by
  have hself : saturatingDurationSince now now < workerRestartRetention := by
    rw [saturatingDurationSince_self]
    decide
  have hfilter : registryEvents (now :: restarts) = (restarts.filter fun t =>
      saturatingDurationSince now t < workerRestartRetention).reverse ++ [now] := by
    simp [registryEvents, hself]
  have hlast : ([now].filter fun t =>
      saturatingDurationSince now t < workerRestartRetention) = [now] := by
    simp [hself]
  rw [hfilter, List.filter_append, hlast]
  congr 1
  cases restarts with
  | nil => rfl
  | cons newest older =>
    simp only [registryEvents, List.filter_reverse, List.filter_filter]
    congr 1
    apply List.filter_congr
    intro t _
    have hnewest := hlater newest List.mem_cons_self
    rw [Bool.eq_iff_iff]
    simp only [Bool.and_eq_true, decide_eq_true_eq]
    unfold saturatingDurationSince
    omega

/-- An event records a restart, and leads to it, or does neither. -/
theorem recordRestart_cases {shutdown : Bool} {now : ℤ} {event : SupervisorEvent}
    {sup sup' : Supervisor} (task : BackgroundTask) (reg : HealthRegistry)
    (h : sup.step shutdown now event = some sup') :
    (sup'.restarts = now :: sup.restarts ∧ recordRestart task now event sup' reg =
        if task.registered then reg.recordWorkerRestart now task.name else reg) ∨
      (sup'.restarts = sup.restarts ∧ recordRestart task now event sup' reg = reg) := by
  rcases Supervisor.step_cases h with ⟨wakesAt, rfl, -, -, rfl⟩ |
    ⟨result, started, rfl, -, rfl⟩ | ⟨started, recorded, rfl, -, rfl⟩
  · unfold Supervisor.start
    split_ifs <;> exact Or.inr ⟨rfl, rfl⟩
  · by_cases hstop : result = .ok ∨ shutdown = true
    · rw [Supervisor.finish, if_pos hstop]
      exact Or.inr ⟨rfl, rfl⟩
    · rw [Supervisor.finish, if_neg hstop]
      exact Or.inl ⟨rfl, rfl⟩
  · exact Or.inr ⟨rfl, rfl⟩

theorem FollowsRestarts.wait {s t : Supervision} (h : FollowsRestarts s)
    (hclock : s.clock ≤ t.clock) (htasks : t.tasks = s.tasks)
    (hreg : t.registry.workerRestarts = s.registry.workerRestarts) : FollowsRestarts t where
  past := by
    rw [htasks]
    exact fun task r hr => (h.past task r hr).trans hclock
  entry := by
    rw [htasks, hreg]
    exact h.entry

theorem FollowsRestarts.step {s t : Supervision} {a : SuperviseAction} (h : FollowsRestarts s)
    (hstep : superviseStep s a = some t) : FollowsRestarts t := by
  obtain ⟨hclock, hnow, ⟨task, event, sup, -, hsup, -, hreg, htasks⟩ | ⟨-, -, hreg, htasks⟩ |
    ⟨poke, -, -, hreg, htasks⟩⟩ := superviseStep_cases hstep
  · rcases recordRestart_cases task s.registry hsup with ⟨hrestarts, hrecord⟩ |
      ⟨hrestarts, hrecord⟩
    · refine ⟨?_, ?_⟩
      · intro other r hr
        rw [hnow]
        by_cases hother : other = task
        · subst hother
          rw [htasks, Function.update_self, hrestarts] at hr
          rcases List.mem_cons.mp hr with rfl | hold
          · exact le_rfl
          · exact (h.past other r hold).trans hclock
        · rw [htasks, Function.update_of_ne hother] at hr
          exact (h.past other r hr).trans hclock
      · intro other hregistered
        rw [hreg, hrecord, htasks]
        by_cases hother : other = task
        · subst hother
          have hlater : ∀ r ∈ (s.tasks other).restarts, r ≤ a.now :=
            fun r hr => (h.past other r hr).trans hclock
          rw [if_pos hregistered, lookup_recordWorkerRestart, if_pos rfl, h.entry other hregistered,
            Function.update_self, hrestarts, if_neg (List.cons_ne_nil _ _),
            registryEvents_cons hlater]
          split_ifs with hnone
          · rw [hnone]
            rfl
          · rfl
        · have hname : other.name ≠ task.name :=
            fun heq => hother (BackgroundTask.name_injective heq)
          rw [Function.update_of_ne hother, ← h.entry other hregistered]
          split_ifs
          · rw [lookup_recordWorkerRestart, if_neg hname]
          · rfl
    · have hsame : ∀ other, (t.tasks other).restarts = (s.tasks other).restarts := by
        intro other
        by_cases hother : other = task
        · subst hother
          rw [htasks, Function.update_self, hrestarts]
        · rw [htasks, Function.update_of_ne hother]
      refine ⟨?_, ?_⟩
      · intro other r hr
        rw [hsame] at hr
        rw [hnow]
        exact (h.past other r hr).trans hclock
      · intro other hregistered
        rw [hreg, hrecord, hsame]
        exact h.entry other hregistered
  · exact h.wait (by rw [hnow]; exact hclock) htasks (by rw [hreg])
  · exact h.wait (by rw [hnow]; exact hclock) htasks (by rw [hreg, workerRestarts_record])

theorem FollowsRestarts.of_run {start : ℤ} {as : List SuperviseAction} {t : Supervision}
    (hrun : exec superviseStep (.new start) as = some t) : FollowsRestarts t :=
  exec_invariant (fun _ _ _ h hstep => h.step hstep) (FollowsRestarts.new start) hrun

/-- The restarts that a sweep which read its clock at `now` counts. -/
def countedAt (now : ℤ) (window : ℕ) (restarts : List ℤ) : ℕ :=
  restarts.countP fun t => decide (now - t < window)

/-- What the registry still has in full when the sweep reads it is counted. -/
theorem countedAt_le_registryEvents {now clock : ℤ} {reach window : ℕ} {restarts : List ℤ}
    (hpast : ∀ r ∈ restarts, r ≤ clock) (hnow : now ≤ clock)
    (hkept : clock - now + reach ≤ workerRestartRetention) (hreach : 0 < reach)
    (hwindow : reach ≤ window) :
    countedAt now reach restarts ≤
      (registryEvents restarts).countP fun t => saturatingDurationSince now t < window := by
  cases restarts with
  | nil => exact le_rfl
  | cons newest older =>
    have hnewest := hpast newest List.mem_cons_self
    rw [registryEvents, List.countP_reverse, List.countP_filter, countedAt]
    apply List.countP_mono_left
    intro t _ hwithin
    simp only [Bool.and_eq_true, decide_eq_true_eq] at hwithin ⊢
    unfold saturatingDurationSince
    omega

theorem countP_registryEvents_le (p : ℤ → Bool) (restarts : List ℤ) :
    (registryEvents restarts).countP p ≤ restarts.countP p := by
  cases restarts with
  | nil => exact le_rfl
  | cons newest older =>
    rw [registryEvents, List.countP_reverse]
    exact List.filter_sublist.countP_le

/-! ### How far apart restarts are -/

def runningSince : SupervisorPhase → Option ℤ
  | .running started => some started
  | .ready _ | .failed _ _ | .stopped => none

def endsRun (task : BackgroundTask) : SuperviseAction → Bool
  | .task _ other (.finish _) => decide (other = task)
  | _ => false

/-- No run of the task ends before it has been up for `upFor`. -/
def LivesFor (upFor : ℕ) (task : BackgroundTask) (s : Supervision) (a : SuperviseAction) : Prop :=
  endsRun task a = true → ∀ started ∈ runningSince (s.tasks task).phase, started + upFor ≤ a.now

instance (upFor : ℕ) (task : BackgroundTask) (s : Supervision) (a : SuperviseAction) :
    Decidable (LivesFor upFor task s a) :=
  inferInstanceAs (Decidable (_ → ∀ started ∈ runningSince _, _))

/-- Restarts are at least the initial delay and `upFor` apart. -/
structure RestartsApart (upFor : ℕ) (clock : ℤ) (sup : Supervisor) : Prop where
  backoff : superviseInitialBackoff ≤ sup.backoff
  apart : PaidFor (upFor + superviseInitialBackoff) 1 0 sup.restarts
  asleep : ∀ wakesAt, sup.phase = .ready wakesAt →
    PaidBy (upFor + superviseInitialBackoff) 1 upFor wakesAt sup.restarts
  running : ∀ started, sup.phase = .running started → started ≤ clock ∧
    PaidBy (upFor + superviseInitialBackoff) 1 upFor started sup.restarts
  failed : ∀ started recorded, sup.phase = .failed started recorded → recorded ≤ clock ∧
    ∃ older, sup.restarts = recorded :: older ∧
      PaidBy (upFor + superviseInitialBackoff) 1 0 recorded older

theorem RestartsApart.new (upFor : ℕ) (now : ℤ) :
    RestartsApart upFor now (Supervisor.new now) where
  backoff := le_rfl
  apart := PaidFor.nil
  asleep := fun _ _ => PaidBy.nil
  running := by simp [Supervisor.new]
  failed := by simp [Supervisor.new]

theorem RestartsApart.wait {upFor : ℕ} {clock now : ℤ} {sup : Supervisor}
    (h : RestartsApart upFor clock sup) (hclock : clock ≤ now) : RestartsApart upFor now sup where
  backoff := h.backoff
  apart := h.apart
  asleep := h.asleep
  running := fun started hphase =>
    ⟨(h.running started hphase).1.trans hclock, (h.running started hphase).2⟩
  failed := fun started recorded hphase =>
    ⟨(h.failed started recorded hphase).1.trans hclock, (h.failed started recorded hphase).2⟩

theorem RestartsApart.stop {upFor : ℕ} {clock : ℤ} {sup : Supervisor}
    (h : RestartsApart upFor clock sup) :
    RestartsApart upFor clock { sup with phase := .stopped } where
  backoff := h.backoff
  apart := h.apart
  asleep := by simp
  running := by simp
  failed := by simp

theorem superviseNextDelay_between {current : ℕ} (hlow : superviseInitialBackoff ≤ current)
    (uptime : ℕ) :
    superviseInitialBackoff ≤ (superviseNextDelay current uptime).1 ∧
      superviseInitialBackoff ≤ (superviseNextDelay current uptime).2 := by
  have hinitial : superviseInitialBackoff ≤ superviseMaxBackoff := by decide
  have hdelay : superviseInitialBackoff ≤ (superviseNextDelay current uptime).1 := by
    simp only [superviseNextDelay]
    split_ifs
    · exact le_rfl
    · exact hlow
  refine ⟨hdelay, le_min ?_ hinitial⟩
  exact hdelay.trans (Nat.le_mul_of_pos_right _ two_pos)

theorem RestartsApart.step {upFor : ℕ} {shutdown : Bool} {clock now : ℤ} {sup sup' : Supervisor}
    {event : SupervisorEvent} (h : RestartsApart upFor clock sup) (hclock : clock ≤ now)
    (hlives : ∀ result started, event = .finish result → sup.phase = .running started →
      started + upFor ≤ now)
    (hstep : sup.step shutdown now event = some sup') : RestartsApart upFor now sup' := by
  rcases Supervisor.step_cases hstep with ⟨wakesAt, -, hphase, hwake, rfl⟩ |
    ⟨result, started, hevent, hphase, rfl⟩ | ⟨started, recorded, -, hphase, rfl⟩
  · have hpaid : PaidBy (upFor + superviseInitialBackoff) 1 upFor now sup.restarts :=
      (h.asleep wakesAt hphase).wait (by linarith)
    unfold Supervisor.start
    split_ifs
    · exact (h.wait hclock).stop
    · refine ⟨h.backoff, h.apart, by simp, ?_, by simp⟩
      intro started hrunning
      obtain rfl : now = started := by simpa using hrunning
      exact ⟨le_rfl, hpaid⟩
  · have hpaid : PaidBy (upFor + superviseInitialBackoff) 1 0 now sup.restarts :=
      (h.running started hphase).2.wait (by linarith [hlives result started hevent hphase])
    unfold Supervisor.finish
    split_ifs
    · exact (h.wait hclock).stop
    · refine ⟨h.backoff, h.apart.cons hpaid, by simp, by simp, ?_⟩
      intro begun recorded hfailed
      obtain ⟨-, rfl⟩ : started = begun ∧ now = recorded := by simpa using hfailed
      exact ⟨le_rfl, sup.restarts, rfl, hpaid⟩
  · obtain ⟨hrecorded, older, hrestarts, hpaid⟩ := h.failed started recorded hphase
    obtain ⟨hdelay, hnext⟩ := superviseNextDelay_between h.backoff
      (saturatingDurationSince now started)
    refine ⟨hnext, h.apart, ?_, by simp [Supervisor.backOff], by simp [Supervisor.backOff]⟩
    intro wakesAt hready
    obtain rfl : now + ((superviseNextDelay sup.backoff (saturatingDurationSince now started)).1 :
        ℤ) = wakesAt := by simpa [Supervisor.backOff] using hready
    have hrestarts' : (sup.backOff now started).restarts = recorded :: older := hrestarts
    rw [hrestarts']
    refine hpaid.cons (by positivity) le_rfl ?_
    have hwait : (superviseInitialBackoff : ℤ) ≤
        (superviseNextDelay sup.backoff (saturatingDurationSince now started)).1 := by
      exact_mod_cast hdelay
    linarith

theorem RestartsApart.of_run {upFor : ℕ} {task : BackgroundTask} {start : ℤ}
    {as : List SuperviseAction} {t : Supervision}
    (hlives : StepsMeet superviseStep (LivesFor upFor task) (.new start) as)
    (hrun : exec superviseStep (.new start) as = some t) :
    RestartsApart upFor t.clock (t.tasks task) := by
  refine task_invariant (fun s a _ h hclock => h.wait hclock) ?_ (RestartsApart.new upFor start)
    hlives hrun
  intro s a event sup hlive h hclock ha hstep
  refine h.step hclock ?_ hstep
  intro result started hevent hphase
  refine hlive ?_ started (by rw [hphase]; rfl)
  rw [ha, hevent]
  simp [endsRun]

/-- Without any assumption on the uptimes, restarts are the initial delay apart. -/
theorem restartsApart_any {task : BackgroundTask} {start : ℤ} {as : List SuperviseAction}
    {t : Supervision} (hrun : exec superviseStep (.new start) as = some t) :
    RestartsApart 0 t.clock (t.tasks task) := by
  refine task_invariant (C := fun _ _ => True) (fun s a _ h hclock => h.wait hclock) ?_
    (RestartsApart.new 0 start) (stepsMeet_of_forall superviseStep (fun _ _ _ => trivial) _) hrun
  intro s a event sup _ h hclock _ hstep
  refine h.step hclock ?_ hstep
  intro result started _ hphase
  have hstarted := (h.running started hphase).1.trans hclock
  simpa using hstarted

/-! ### How close restarts are -/

/-- When the next event of a loop is due: a run lasts at most `upFor`, and whatever
the loop does by itself it does at most `late` after it can. -/
def dueBy (upFor late : ℕ) : SupervisorPhase → Option ℤ
  | .ready wakesAt => some (wakesAt + late)
  | .running started => some (started + upFor)
  | .failed _ recorded => some (recorded + late)
  | .stopped => none

def endsCleanly (task : BackgroundTask) : SuperviseAction → Bool
  | .task _ other (.finish .ok) => decide (other = task)
  | _ => false

/-- The task fails again and again, each time within `upFor`, and is not shut down. -/
def FailsSoon (upFor late : ℕ) (task : BackgroundTask) (s : Supervision) (a : SuperviseAction) :
    Prop :=
  s.shutdown = false ∧ endsCleanly task a = false ∧
    ∃ due ∈ dueBy upFor late (s.tasks task).phase, a.now ≤ due

instance (upFor late : ℕ) (task : BackgroundTask) (s : Supervision) (a : SuperviseAction) :
    Decidable (FailsSoon upFor late task s a) :=
  inferInstanceAs (Decidable (_ ∧ _ ∧ ∃ due ∈ dueBy upFor late (s.tasks task).phase, _))

/-- A failing run, the longest delay, and both ends of it late. -/
def restartGap (upFor late : ℕ) : ℕ := upFor + superviseMaxBackoff + 2 * late

/-- The newest restart, or the instant the loop was entered. -/
def lastRestart (origin : ℤ) (sup : Supervisor) : ℤ := sup.restarts.headD origin

/-- Restarts follow each other within `restartGap`, and the next one is on its way. -/
structure RestartsClose (upFor late : ℕ) (origin clock : ℤ) (sup : Supervisor) : Prop where
  backoff : sup.backoff ≤ superviseMaxBackoff
  close : List.IsChain (fun newer older : ℤ => newer - older ≤ restartGap upFor late)
    (sup.restarts ++ [origin])
  due : ∃ due ∈ dueBy upFor late sup.phase, clock ≤ due
  asleep : ∀ wakesAt, sup.phase = .ready wakesAt →
    wakesAt + late + upFor ≤ lastRestart origin sup + restartGap upFor late
  running : ∀ started, sup.phase = .running started →
    started + upFor ≤ lastRestart origin sup + restartGap upFor late
  failed : ∀ started recorded, sup.phase = .failed started recorded →
    lastRestart origin sup = recorded

variable {upFor late : ℕ} {origin : ℤ}

theorem RestartsClose.new (now : ℤ) : RestartsClose upFor late now now (Supervisor.new now) where
  backoff := (by decide : superviseInitialBackoff ≤ superviseMaxBackoff)
  close := List.isChain_singleton _
  due := ⟨now + late, rfl, by linarith [Int.natCast_nonneg late]⟩
  asleep := by
    intro wakesAt hready
    obtain rfl : now = wakesAt := by simpa [Supervisor.new] using hready
    have hlast : lastRestart now (Supervisor.new now) = now := rfl
    rw [hlast]
    unfold restartGap
    omega
  running := by simp [Supervisor.new]
  failed := by simp [Supervisor.new]

theorem RestartsClose.wait {clock now : ℤ} {sup : Supervisor}
    (h : RestartsClose upFor late origin clock sup)
    (hdue : ∃ due ∈ dueBy upFor late sup.phase, now ≤ due) :
    RestartsClose upFor late origin now sup :=
  ⟨h.backoff, h.close, hdue, h.asleep, h.running, h.failed⟩

theorem RestartsClose.clock_le {clock : ℤ} {sup : Supervisor}
    (h : RestartsClose upFor late origin clock sup) :
    clock - lastRestart origin sup ≤ restartGap upFor late := by
  obtain ⟨due, hdue, hclock⟩ := h.due
  cases hphase : sup.phase with
  | ready wakesAt =>
    obtain rfl : wakesAt + late = due := by simpa [hphase, dueBy] using hdue
    have hasleep := h.asleep wakesAt hphase
    omega
  | running started =>
    obtain rfl : started + upFor = due := by simpa [hphase, dueBy] using hdue
    have hrunning := h.running started hphase
    omega
  | failed started recorded =>
    obtain rfl : recorded + late = due := by simpa [hphase, dueBy] using hdue
    have hlast := h.failed started recorded hphase
    unfold restartGap
    omega
  | stopped => simp [hphase, dueBy] at hdue

theorem chain_from_last {gap now : ℤ} {sup : Supervisor}
    (h : List.IsChain (fun newer older : ℤ => newer - older ≤ gap) (sup.restarts ++ [origin]))
    (hnow : now - lastRestart origin sup ≤ gap) :
    List.IsChain (fun newer older : ℤ => newer - older ≤ gap)
      (now :: (sup.restarts ++ [origin])) := by
  unfold lastRestart at hnow
  cases hrestarts : sup.restarts with
  | nil => simpa [hrestarts] using hnow
  | cons newest older =>
    rw [hrestarts] at h hnow
    exact List.isChain_cons_cons.mpr ⟨hnow, h⟩

theorem RestartsClose.step {clock now : ℤ} {sup sup' : Supervisor} {event : SupervisorEvent}
    (h : RestartsClose upFor late origin clock sup)
    (hdue : ∃ due ∈ dueBy upFor late sup.phase, now ≤ due) (hfails : event ≠ .finish .ok)
    (hstep : sup.step false now event = some sup') : RestartsClose upFor late origin now sup' := by
  have hnow := h.wait hdue
  have hlate := Int.natCast_nonneg late
  obtain ⟨due, hmem, hle⟩ := hdue
  rcases Supervisor.step_cases hstep with ⟨wakesAt, -, hphase, hwake, rfl⟩ |
    ⟨result, started, hevent, hphase, rfl⟩ | ⟨started, recorded, -, hphase, rfl⟩
  · obtain rfl : wakesAt + late = due := by simpa [hphase, dueBy] using hmem
    have hasleep := h.asleep wakesAt hphase
    have hlast : lastRestart origin (sup.start false now) = lastRestart origin sup := rfl
    refine ⟨h.backoff, h.close, ⟨now + upFor, rfl, by omega⟩, by simp [Supervisor.start], ?_,
      by simp [Supervisor.start]⟩
    intro started hrunning
    obtain rfl : now = started := by simpa [Supervisor.start] using hrunning
    omega
  · have hagain : ¬(result = .ok ∨ false = true) := by
      rintro (rfl | hfalse)
      · exact hfails hevent
      · cases hfalse
    rw [Supervisor.finish, if_neg hagain]
    refine ⟨h.backoff, ?_, ⟨now + late, rfl, by omega⟩, by simp, by simp, ?_⟩
    · exact chain_from_last h.close hnow.clock_le
    · intro begun recorded hfailed
      obtain ⟨-, rfl⟩ : started = begun ∧ now = recorded := by simpa using hfailed
      rfl
  · obtain rfl : recorded + late = due := by simpa [hphase, dueBy] using hmem
    have hlast := h.failed started recorded hphase
    have hdelay : (superviseNextDelay sup.backoff (saturatingDurationSince now started)).1 ≤
        superviseMaxBackoff := by
      have hinitial : superviseInitialBackoff ≤ superviseMaxBackoff := by decide
      simp only [superviseNextDelay]
      split_ifs
      · exact hinitial
      · exact h.backoff
    have hlast' : lastRestart origin (sup.backOff now started) = lastRestart origin sup := rfl
    refine ⟨doubled_le _ _, h.close, ⟨_, rfl, by omega⟩, ?_, by simp [Supervisor.backOff],
      by simp [Supervisor.backOff]⟩
    intro wakesAt hready
    obtain rfl : now + ((superviseNextDelay sup.backoff (saturatingDurationSince now started)).1 :
        ℤ) = wakesAt := by simpa [Supervisor.backOff] using hready
    unfold restartGap
    omega

theorem RestartsClose.of_run {task : BackgroundTask} {as : List SuperviseAction} {t : Supervision}
    (hfails : StepsMeet superviseStep (FailsSoon upFor late task) (.new origin) as)
    (hrun : exec superviseStep (.new origin) as = some t) :
    RestartsClose upFor late origin t.clock (t.tasks task) := by
  refine task_invariant (fun s a hfail h _ => h.wait hfail.2.2) ?_ (RestartsClose.new origin)
    hfails hrun
  intro s a event sup hfail h _ ha hstep
  rw [hfail.1] at hstep
  refine h.step hfail.2.2 ?_ hstep
  intro hevent
  have hclean := hfail.2.1
  rw [ha, hevent] at hclean
  simp [endsCleanly] at hclean

/-! ### The alarm -/

theorem restart_count_eq {s : Supervision} (h : FollowsRestarts s) {task : BackgroundTask}
    (hregistered : task.registered = true) (now : ℤ) (window : ℕ) :
    s.registry.workerRestartCountInWindow task.name now window =
      ((registryEvents (s.tasks task).restarts).countP fun t =>
        saturatingDurationSince now t < window).toUInt32 := by
  have hentry := h.entry task hregistered
  simp only [HealthRegistry.workerRestartCountInWindow]
  rw [hentry]
  split_ifs with hnone
  · rw [hnone]
    rfl
  · rfl

theorem mem_trackedWorkers_iff {s : Supervision} (h : FollowsRestarts s) {task : BackgroundTask}
    (hregistered : task.registered = true) :
    task.name ∈ s.registry.trackedWorkers ↔ (s.tasks task).restarts ≠ [] := by
  have hentry := h.entry task hregistered
  constructor
  · intro hmem hnone
    obtain ⟨row, hrow, hname⟩ := List.mem_map.mp hmem
    have hlookup := KeyedTable.lookup_eq_some_iff.mpr ⟨hrow, hname⟩
    rw [hlookup, if_pos hnone] at hentry
    cases hentry
  · intro hsome
    rw [if_neg hsome] at hentry
    obtain ⟨row, hrow, -⟩ := Option.map_eq_some_iff.mp hentry
    obtain ⟨hmem, hname⟩ := KeyedTable.lookup_eq_some_iff.mp hrow
    exact List.mem_map.mpr ⟨row, hmem, hname⟩

theorem le_newest {rate newest : ℤ} {older : List ℤ} (hrate : 0 ≤ rate)
    (h : PaidFor rate 1 0 (newest :: older)) : ∀ t ∈ newest :: older, t ≤ newest := by
  intro t ht
  rcases List.mem_cons.mp ht with rfl | hold
  · exact le_rfl
  · have hpaid := h newest [] t (List.cons_sublist_cons.mpr (List.singleton_sublist.mpr hold))
    simp only [List.length_nil, Nat.cast_zero, zero_add, mul_one] at hpaid
    linarith

/-- The restarts of a day fit a `u32`. -/
theorem length_registryEvents_lt {clock : ℤ} {sup : Supervisor} (h : RestartsApart 0 clock sup) :
    (registryEvents sup.restarts).length < 2 ^ 32 := by
  have hapart := h.apart
  cases hrestarts : sup.restarts with
  | nil => exact Nat.two_pow_pos 32
  | cons newest older =>
    rw [hrestarts] at hapart
    rw [registryEvents, List.length_reverse, ← List.countP_eq_length_filter]
    have hday : (workerRestartRetention : ℤ) = 86400000000000 := rfl
    have hinitial : (superviseInitialBackoff : ℤ) = 1000000000 := rfl
    have hlatest := le_newest (by rw [hinitial]; norm_num) hapart
    rcases hapart.picked fun t =>
      decide (saturatingDurationSince newest t < workerRestartRetention) with
        hone | ⟨first, hfirst, last, -, -, hlast, hpaid⟩
    · exact lt_of_le_of_lt hone (by norm_num)
    · have hbefore := hlatest first hfirst
      have hkept : newest - last < workerRestartRetention := by
        have hlast' := of_decide_eq_true hlast
        unfold saturatingDurationSince at hlast'
        omega
      rw [hinitial] at hpaid
      have hbound : ((newest :: older).countP fun t =>
          decide (saturatingDurationSince newest t < workerRestartRetention) : ℤ) < 2 ^ 32 := by
        push_cast at hpaid
        linarith
      exact_mod_cast hbound

/-- A worker that fails within `upFor` of every start is reported as crash looping by
every sweep, once it has had time for `threshold` restarts, if the window has room for
that many and so has what the registry retains, less the lag of the sweep's clock. -/
theorem crash_loop_reported (start : ℤ) (as : List SuperviseAction) (t : Supervision)
    (task : BackgroundTask) (upFor late : ℕ) (now : ℤ) (window : ℕ) (threshold : UInt32)
    (hregistered : task.registered = true)
    (hfails : StepsMeet superviseStep (FailsSoon upFor late task) (.new start) as)
    (hrun : exec superviseStep (.new start) as = some t) (hnow : now ≤ t.clock)
    (hpos : 0 < threshold.toNat)
    (hlong : threshold.toNat * restartGap upFor late < t.clock - start)
    (hwindow : threshold.toNat * restartGap upFor late < window)
    (hretained :
      t.clock - now + threshold.toNat * restartGap upFor late < workerRestartRetention) :
    .workerCrashLooping task.name ∈
      workerCrashloopConditions t.registry now window threshold := by
  have hfollows := FollowsRestarts.of_run hrun
  have hclose := RestartsClose.of_run hfails hrun
  have hchain := chain_from_last hclose.close hclose.clock_le
  -- The part of the window that no restart has been pruned from.
  obtain ⟨reach, hkept, hroom, hwithin⟩ : ∃ reach : ℕ,
      t.clock - now + reach ≤ workerRestartRetention ∧
        threshold.toNat * restartGap upFor late < reach ∧ reach ≤ window := by
    refine ⟨threshold.toNat * restartGap upFor late + 1, ?_, Nat.lt_succ_self _, hwindow⟩
    push_cast
    linarith
  have hwide : now - t.clock + threshold.toNat * restartGap upFor late < reach := by
    have hroom' : ((threshold.toNat * restartGap upFor late : ℕ) : ℤ) < reach := by
      exact_mod_cast hroom
    push_cast at hroom'
    linarith
  have hcount : threshold.toNat ≤ countedAt now reach (t.tasks task).restarts :=
    le_countP_of_gaps (Int.natCast_nonneg _) hchain hlong hwide
  have hkeeps := countedAt_le_registryEvents (hfollows.past task) hnow hkept
    (Nat.zero_lt_of_lt hroom) hwithin
  have hapart : RestartsApart 0 t.clock (t.tasks task) := restartsApart_any hrun
  have hsmall : (registryEvents (t.tasks task).restarts).countP
      (fun t => saturatingDurationSince now t < window) < 2 ^ 32 :=
    List.countP_le_length.trans_lt (length_registryEvents_lt hapart)
  have hsome : (t.tasks task).restarts ≠ [] := by
    intro hnone
    rw [hnone] at hcount
    exact absurd hpos (not_lt.mpr hcount)
  refine List.mem_map.mpr ⟨task.name, List.mem_filter.mpr
    ⟨(mem_trackedWorkers_iff hfollows hregistered).mpr hsome, decide_eq_true ?_⟩, rfl⟩
  rw [restart_count_eq hfollows hregistered, ge_iff_le, UInt32.le_iff_toNat_le]
  rw [Nat.toUInt32_eq, UInt32.toNat_ofNat_of_lt' hsmall]
  exact hcount.trans hkeeps

/-- A minute and a half of a poller that always fails at once. -/
def longCrashes : List SuperviseAction :=
  fastCrashes ++ crashAt 61000000000 ++ crashAt 91000000000

/-- With the default threshold, for the default window and for one of two days. -/
theorem crash_loop_reported_fast_crashes :
    ∃ t, exec superviseStep (.new 0) longCrashes = some t ∧
      .workerCrashLooping "live_poller" ∈
        workerCrashloopConditions t.registry t.clock 300000000000 3 ∧
      .workerCrashLooping "live_poller" ∈
        workerCrashloopConditions t.registry t.clock 172800000000000 3 := by
  have hlog : (exec superviseStep (.new 0) longCrashes).map Supervision.clock =
      some 91000000000 := by
    decide +kernel
  obtain ⟨t, hrun, hclock⟩ := Option.map_eq_some_iff.mp hlog
  have hreported : ∀ window : ℕ, 3 * restartGap 0 0 < window →
      .workerCrashLooping "live_poller" ∈
        workerCrashloopConditions t.registry t.clock window 3 := by
    intro window hwindow
    exact crash_loop_reported 0 longCrashes t .livePoller 0 0 t.clock window 3 rfl
      (by decide +kernel) hrun le_rfl (by decide) (by rw [hclock]; decide) hwindow
      (by rw [hclock]; decide)
  exact ⟨t, hrun, hreported _ (by decide), hreported _ (by decide)⟩

/-- A crash every thirteen hours: the registry keeps two of them, and a window of two
days shows no more. -/
example : (exec superviseStep (.new 0) (crashAt 0 ++ crashAt 46800000000000 ++
    crashAt 93600000000000)).map (fun t => ((t.tasks .livePoller).restarts.length,
      workerCrashloopConditions t.registry t.clock 172800000000000 3)) = some (3, []) := by
  decide +kernel

/-- A worker that is up for `upFor` after every start is reported by no sweep, if
fewer than `threshold` of its restarts fit into the window and the time the sweep
takes. -/
theorem crash_loop_not_reported (start : ℤ) (as : List SuperviseAction) (t : Supervision)
    (task : BackgroundTask) (upFor : ℕ) (now : ℤ) (window : ℕ) (threshold : UInt32)
    (hregistered : task.registered = true)
    (hlives : StepsMeet superviseStep (LivesFor upFor task) (.new start) as)
    (hrun : exec superviseStep (.new start) as = some t) (hmany : 1 < threshold.toNat)
    (hapart : t.clock - now + window ≤
      (threshold.toNat - 1) * (upFor + superviseInitialBackoff)) :
    .workerCrashLooping task.name ∉
      workerCrashloopConditions t.registry now window threshold := by
  have hfollows := FollowsRestarts.of_run hrun
  intro hmem
  obtain ⟨name, hname, hcondition⟩ := List.mem_map.mp hmem
  obtain rfl : name = task.name := by simpa using hcondition
  have hactive := of_decide_eq_true (List.mem_filter.mp hname).2
  rw [restart_count_eq hfollows hregistered, ge_iff_le, UInt32.le_iff_toNat_le] at hactive
  have hall := countP_registryEvents_le
    (fun t => decide (saturatingDurationSince now t < window)) (t.tasks task).restarts
  have hcount : threshold.toNat ≤ (t.tasks task).restarts.countP
      (fun t => decide (saturatingDurationSince now t < window)) := by
    refine hactive.trans (le_trans ?_ hall)
    rw [Nat.toUInt32_eq, UInt32.toNat_ofNat']
    exact Nat.mod_le _ _
  rcases (RestartsApart.of_run hlives hrun).apart.picked
    (fun t => decide (saturatingDurationSince now t < window)) with
      hone | ⟨newest, hnewest, oldest, -, -, hold, hpaid⟩
  · omega
  · have hpast := hfollows.past task newest hnewest
    have hwithin : now - oldest < window := by
      have hold' := of_decide_eq_true hold
      unfold saturatingDurationSince at hold'
      omega
    have hmore : ((threshold.toNat : ℤ) - 1) ≤ ((t.tasks task).restarts.countP
        (fun t => decide (saturatingDurationSince now t < window)) : ℤ) - 1 := by
      have hcount' : (threshold.toNat : ℤ) ≤ ((t.tasks task).restarts.countP
          (fun t => decide (saturatingDurationSince now t < window)) : ℤ) := by
        exact_mod_cast hcount
      linarith
    have hgap : (0 : ℤ) ≤ upFor + superviseInitialBackoff := by positivity
    have hspan := mul_le_mul_of_nonneg_left hmore hgap
    linarith

/-- The poller fails after 149 seconds, twice. -/
def slowCrashes : List SuperviseAction :=
  [.task 0 .livePoller .start, .task 149000000000 .livePoller (.finish .error),
    .task 149000000000 .livePoller .backOff, .task 150000000000 .livePoller .start,
    .task 299000000000 .livePoller (.finish .panicked)]

/-- With the default window and threshold. -/
theorem crash_loop_not_reported_slow_crashes :
    ∃ t, exec superviseStep (.new 0) slowCrashes = some t ∧
      (t.tasks .livePoller).restarts.length = 2 ∧
      .workerCrashLooping "live_poller" ∉
        workerCrashloopConditions t.registry t.clock 300000000000 3 := by
  have hlog : (exec superviseStep (.new 0) slowCrashes).map
      (fun t => ((t.tasks .livePoller).restarts.length, t.clock)) = some (2, 299000000000) := by
    decide +kernel
  obtain ⟨t, hrun, hreached⟩ := Option.map_eq_some_iff.mp hlog
  obtain ⟨hrestarts, hclock⟩ := Prod.mk.inj hreached
  refine ⟨t, hrun, hrestarts, ?_⟩
  exact crash_loop_not_reported 0 slowCrashes t .livePoller 149000000000 t.clock 300000000000 3
    rfl (by decide +kernel) hrun (by decide) (by rw [hclock]; decide)

end CryptoCollector.Alarm

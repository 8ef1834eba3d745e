import CryptoCollector.Lifecycle.Steps

/-!
# The start of a process

Migrations, workers, listener and readiness follow each other. The migrations are retried after
a delay that doubles up to half a minute, for as long as the database is away.
-/

namespace CryptoCollector.Lifecycle
open Foundations Health Collectors

/-- What `main` has done by the time it stands at a phase. -/
def Standing (s : Process) : MainPhase → Prop
  | .entering | .migrating _ | .retrying _ _ | .aborting => s.migratedAt = none
  | .buildingChain | .checkingPacer | .enqueuing | .spawningWorkers =>
    s.migratedAt.isSome ∧ s.workersAt = none
  | .bindingApi => s.workersAt.isSome ∧ s.boundAt = none
  | .settingReady => s.boundAt.isSome ∧ s.health.state.readyAt = none ∧ s.api = .bound
  | .servingApi => s.boundAt.isSome ∧ s.api = .bound
  | .joining => s.api = .serving ∨ s.api = .stopped
  | .draining _ | .closing | .ended => True
  | .failed => s.migratedAt.isSome ∧ s.health.state.readyAt = none

structure StartKept (s : Process) : Prop where
  migrated : ∀ m ∈ s.migratedAt, m ≤ s.clock
  spawned : ∀ w ∈ s.workersAt, w ≤ s.clock ∧ ∃ m ∈ s.migratedAt, m ≤ w
  bound : ∀ b ∈ s.boundAt, b ≤ s.clock ∧ ∃ w ∈ s.workersAt, w ≤ b
  ready : ∀ r ∈ s.health.state.readyAt, ∃ b ∈ s.boundAt, b ≤ r
  workers : s.workers = .notSpawned ↔ s.workersAt = none
  api : s.api = .unbound ↔ s.boundAt = none
  standing : Standing s s.main

section Start

variable {config : ShutdownConfig} {s t : Process}

theorem StartKept.start (now : ℤ) : StartKept (.start now) := by
  constructor <;> simp [Process.start, HealthServer.new, HealthState.new, Standing]

theorem StartKept.unspawned (h : StartKept s) (hmigrated : s.migratedAt = none) :
    s.workersAt = none := by
  by_contra hne
  obtain ⟨w, hw⟩ := Option.ne_none_iff_exists'.mp hne
  obtain ⟨-, m, hm, -⟩ := h.spawned w hw
  simp [hmigrated] at hm

theorem StartKept.unbound (h : StartKept s) (hspawned : s.workersAt = none) :
    s.boundAt = none := by
  by_contra hne
  obtain ⟨b, hb⟩ := Option.ne_none_iff_exists'.mp hne
  obtain ⟨-, w, hw, -⟩ := h.bound b hb
  simp [hspawned] at hw

theorem StartKept.unready (h : StartKept s) (hbound : s.boundAt = none) :
    s.health.state.readyAt = none := by
  by_contra hne
  obtain ⟨r, hr⟩ := Option.ne_none_iff_exists'.mp hne
  obtain ⟨b, hb, -⟩ := h.ready r hr
  simp [hbound] at hb

theorem StartKept.goOn (h : StartKept s) {main : MainPhase} {failures : List ℤ}
    {joinedAt closedAt : Option ℤ} (hstanding : Standing s main) :
    StartKept { s with
      main := main, failures := failures, joinedAt := joinedAt, closedAt := closedAt } :=
  ⟨h.migrated, h.spawned, h.bound, h.ready, h.workers, h.api, by cases main <;> exact hstanding⟩

theorem StartKept.mainStep (h : StartKept s) {retries : Bool}
    (hmoved : MainMoved config s retries t) : StartKept t := by
  have hstanding := h.standing
  cases hmoved with
  | entered hmain _ =>
    rw [hmain] at hstanding
    exact h.goOn hstanding
  | attemptFailed hmain =>
    rw [hmain] at hstanding
    exact h.goOn hstanding
  | woken hmain _ =>
    rw [hmain] at hstanding
    exact h.goOn hstanding
  | aborted hmain _ =>
    obtain hmain | ⟨_, hmain⟩ | ⟨_, _, hmain⟩ := hmain <;> rw [hmain] at hstanding <;>
      exact h.goOn hstanding
  | abandoned _ _ => exact h.goOn trivial
  | migrated hmain =>
    rw [hmain] at hstanding
    have hspawned := h.unspawned hstanding
    refine ⟨?_, ?_, h.bound, h.ready, h.workers, h.api, rfl, hspawned⟩
    · simp
    · simp [hspawned]
  | validated before after hpair hmain =>
    simp only [List.mem_cons, Prod.mk.injEq, List.not_mem_nil, or_false] at hpair
    obtain ⟨rfl, rfl⟩ | ⟨rfl, rfl⟩ | ⟨rfl, rfl⟩ := hpair <;> rw [hmain] at hstanding <;>
      exact h.goOn hstanding
  | rejected hmain =>
    simp only [List.mem_cons, List.not_mem_nil, or_false] at hmain
    obtain hmain | hmain | hmain := hmain <;> rw [hmain] at hstanding
    · exact h.goOn ⟨hstanding.1, h.unready (h.unbound hstanding.2)⟩
    · exact h.goOn ⟨hstanding.1, h.unready (h.unbound hstanding.2)⟩
    · obtain ⟨w, hw⟩ := Option.isSome_iff_exists.mp hstanding.1
      obtain ⟨-, m, hm, -⟩ := h.spawned w hw
      exact h.goOn ⟨Option.isSome_iff_exists.mpr ⟨m, hm⟩, h.unready hstanding.2⟩
  | workersSpawned hmain =>
    rw [hmain] at hstanding
    obtain ⟨hmigrated, hspawned⟩ := hstanding
    have hbound := h.unbound hspawned
    obtain ⟨m, hm⟩ := Option.isSome_iff_exists.mp hmigrated
    refine ⟨h.migrated, ?_, ?_, h.ready, ?_, h.api, rfl, hbound⟩
    · intro w hw
      obtain rfl := Option.some.inj hw
      exact ⟨le_rfl, m, hm, h.migrated m hm⟩
    · simp [hbound]
    · simp
  | apiBound hmain =>
    rw [hmain] at hstanding
    obtain ⟨hspawned, hbound⟩ := hstanding
    have hready := h.unready hbound
    obtain ⟨w, hw⟩ := Option.isSome_iff_exists.mp hspawned
    refine ⟨h.migrated, h.spawned, ?_, ?_, h.workers, ?_, rfl, hready, rfl⟩
    · intro b hb
      obtain rfl := Option.some.inj hb
      exact ⟨le_rfl, w, hw, (h.spawned w hw).1⟩
    · simp [hready]
    · simp
  | ready hmain =>
    rw [hmain] at hstanding
    obtain ⟨hbound, hready, hapi⟩ := hstanding
    obtain ⟨b, hb⟩ := Option.isSome_iff_exists.mp hbound
    refine ⟨h.migrated, h.spawned, h.bound, ?_, h.workers, h.api, hbound, hapi⟩
    intro r hr
    obtain rfl : s.clock = r := by
      simpa [HealthServer.setReady, HealthState.setReady, hready] using hr
    exact ⟨b, hb, (h.bound b hb).1⟩
  | serving hmain =>
    rw [hmain] at hstanding
    refine ⟨h.migrated, h.spawned, h.bound, h.ready, h.workers, ?_, .inl rfl⟩
    simpa using Option.isSome_iff_ne_none.mp hstanding.1
  | joined _ _ _ => exact h.goOn trivial
  | drained _ _ => exact h.goOn trivial
  | closed _ _ => exact h.goOn trivial

/-- Time passes, and what is not `main` goes on: the workers may finish, the API may stop. -/
theorem StartKept.beside (h : StartKept s) (hclock : s.clock ≤ t.clock) (hmain : t.main = s.main)
    (hmigrated : t.migratedAt = s.migratedAt) (hspawned : t.workersAt = s.workersAt)
    (hbound : t.boundAt = s.boundAt)
    (hready : t.health.state.readyAt = s.health.state.readyAt)
    (hworkers : t.workers = s.workers ∨ s.workers = .running ∧ t.workers = .finished)
    (hapi : t.api = s.api ∨ s.api = .serving ∧ t.api = .stopped) : StartKept t := by
  have hstanding := h.standing
  have hunstopped : s.api ≠ .serving → t.api = s.api := fun hne =>
    hapi.resolve_right fun hstops => hne hstops.1
  refine ⟨?_, ?_, ?_, ?_, ?_, ?_, ?_⟩
  · rw [hmigrated]
    exact fun m hm => (h.migrated m hm).trans hclock
  · rw [hmigrated, hspawned]
    exact fun w hw => ⟨(h.spawned w hw).1.trans hclock, (h.spawned w hw).2⟩
  · rw [hspawned, hbound]
    exact fun b hb => ⟨(h.bound b hb).1.trans hclock, (h.bound b hb).2⟩
  · rw [hbound, hready]
    exact h.ready
  · have hiff := h.workers
    rw [hspawned, ← hiff]
    obtain hsame | ⟨hold, hnew⟩ := hworkers
    · rw [hsame]
    · simp [hold, hnew]
  · have hiff := h.api
    rw [hbound, ← hiff]
    obtain hsame | ⟨hold, hnew⟩ := hapi
    · rw [hsame]
    · simp [hold, hnew]
  · rw [hmain]
    cases hphase : s.main <;> rw [hphase] at hstanding <;>
      simp only [Standing, hmigrated, hspawned, hbound, hready] at hstanding ⊢ <;>
      try exact hstanding
    · rw [hunstopped (by simp [hstanding.2.2])]
      exact hstanding
    · rw [hunstopped (by simp [hstanding.2])]
      exact hstanding
    · obtain hsame | ⟨-, hnew⟩ := hapi
      · rw [hsame]
        exact hstanding
      · exact Or.inr hnew

theorem StartKept.wait (h : StartKept s) {now : ℤ} (hle : s.clock ≤ now) :
    StartKept { s with clock := now } :=
  h.beside hle rfl rfl rfl rfl rfl (.inl rfl) (.inl rfl)

theorem StartKept.moved (h : StartKept s) (hmoved : Moved config s t) : StartKept t := by
  cases hmoved with
  | main hmain => exact h.mainStep hmain
  | signalled _ => exact h.beside le_rfl rfl rfl rfl rfl rfl (.inl rfl) (.inl rfl)
  | graceOver _ _ => exact h.beside le_rfl rfl rfl rfl rfl rfl (.inl rfl) (.inl rfl)
  | supervised _ _ _ => exact h.beside le_rfl rfl rfl rfl rfl rfl (.inl rfl) (.inl rfl)
  | workersFinished hrunning _ _ =>
    exact h.beside le_rfl rfl rfl rfl rfl rfl (.inr ⟨hrunning, rfl⟩) (.inl rfl)
  | asked _ => exact h.beside le_rfl rfl rfl rfl rfl rfl (.inl rfl) (.inl rfl)
  | apiStopped hserving _ _ =>
    exact h.beside le_rfl rfl rfl rfl rfl rfl (.inl rfl) (.inr ⟨hserving, rfl⟩)
  | connected _ => exact h.beside le_rfl rfl rfl rfl rfl rfl (.inl rfl) (.inl rfl)
  | healthStopped _ _ => exact h.beside le_rfl rfl rfl rfl rfl rfl (.inl rfl) (.inl rfl)
  | probed hready _ _ _ => exact h.beside le_rfl rfl rfl rfl rfl hready (.inl rfl) (.inl rfl)

end Start

/-- How long `migrate_with_retry` waits after its `k + 1`st failure. -/
def migrationDelay (k : ℕ) : ℕ := min (retryInitialBackoff * 2 ^ k) retryMaxBackoff

theorem doubled_migrationDelay (k : ℕ) :
    doubled retryMaxBackoff (migrationDelay k) = migrationDelay (k + 1) := by
  rw [migrationDelay, migrationDelay, pow_succ, ← mul_assoc]
  exact doubled_min (Nat.zero_le _) _

/-- By `now` the delay has passed after each of the failures, newest first. -/
def WaitedOut : ℤ → List ℤ → Prop
  | _, [] => True
  | now, failure :: older =>
    failure + migrationDelay older.length ≤ now ∧ WaitedOut failure older

/-- Each failure came when the delay had passed after the one before. -/
def BackedOff : List ℤ → Prop
  | [] => True
  | failure :: older => WaitedOut failure older

/-- What the wait of `main` rests on. -/
def Waiting (s : Process) : MainPhase → Prop
  | .entering => s.failures = []
  | .migrating backoff =>
    WaitedOut s.clock s.failures ∧ backoff = migrationDelay s.failures.length
  | .retrying backoff wakesAt => ∃ failure older, s.failures = failure :: older ∧
      backoff = migrationDelay older.length ∧ wakesAt = failure + backoff
  | _ => True

structure RetryKept (s : Process) : Prop where
  attempts : BackedOff s.failures
  waiting : Waiting s s.main
  migrated : ∀ m ∈ s.migratedAt, WaitedOut m s.failures

section Retry

variable {config : ShutdownConfig} {s t : Process} {failures : List ℤ} {now later : ℤ}

theorem WaitedOut.of_le (h : WaitedOut now failures) (hle : now ≤ later) :
    WaitedOut later failures := by
  cases failures with
  | nil => trivial
  | cons failure older => exact ⟨h.1.trans hle, h.2⟩

theorem Waiting.beside {main : MainPhase} (h : Waiting s main) (hclock : t.clock = s.clock)
    (hfailures : t.failures = s.failures) : Waiting t main := by
  unfold Waiting at h ⊢
  rw [hclock, hfailures]
  exact h

theorem RetryKept.start (now : ℤ) : RetryKept (.start now) := by
  constructor <;> simp [Process.start, BackedOff, Waiting]

theorem RetryKept.wait (h : RetryKept s) (hle : s.clock ≤ now) :
    RetryKept { s with clock := now } := by
  refine ⟨h.attempts, ?_, h.migrated⟩
  have hwaiting := h.waiting
  cases hmain : s.main <;> rw [hmain] at hwaiting <;> simp only [Waiting] at hwaiting ⊢
  · exact hwaiting
  · exact ⟨hwaiting.1.of_le hle, hwaiting.2⟩
  · exact hwaiting

theorem RetryKept.goOn (h : RetryKept s) (hfailures : t.failures = s.failures)
    (hmigrated : t.migratedAt = s.migratedAt) (hwaiting : Waiting t t.main) : RetryKept t := by
  refine ⟨?_, hwaiting, ?_⟩
  · rw [hfailures]
    exact h.attempts
  · rw [hfailures, hmigrated]
    exact h.migrated

theorem RetryKept.mainStep (h : RetryKept s) (hstart : StartKept s)
    {retries : Bool} (hmoved : MainMoved config s retries t) : RetryKept t := by
  have hwaiting := h.waiting
  have hstanding := hstart.standing
  cases hmoved with
  | entered hmain _ =>
    rw [hmain] at hwaiting
    refine h.goOn rfl rfl ⟨?_, ?_⟩
    · rw [hwaiting]
      trivial
    · rw [hwaiting]
      decide
  | attemptFailed hmain =>
    rw [hmain] at hwaiting hstanding
    refine ⟨hwaiting.1, ⟨s.clock, s.failures, rfl, hwaiting.2, rfl⟩, ?_⟩
    intro m hm
    have hnone : s.migratedAt = none := hstanding
    simp [hnone] at hm
  | woken hmain hwakes =>
    rw [hmain] at hwaiting
    obtain ⟨failure, older, hfailures, rfl, rfl⟩ := hwaiting
    have hattempts := h.attempts
    rw [hfailures] at hattempts
    refine h.goOn rfl rfl ⟨?_, ?_⟩
    · rw [hfailures]
      exact ⟨hwakes, hattempts⟩
    · rw [hfailures]
      exact doubled_migrationDelay _
  | migrated hmain =>
    rw [hmain] at hwaiting
    refine ⟨h.attempts, trivial, ?_⟩
    intro m hm
    obtain rfl := Option.some.inj hm
    exact hwaiting.1
  | validated before after hpair hmain =>
    simp only [List.mem_cons, Prod.mk.injEq, List.not_mem_nil, or_false] at hpair
    obtain ⟨rfl, rfl⟩ | ⟨rfl, rfl⟩ | ⟨rfl, rfl⟩ := hpair <;> exact h.goOn rfl rfl trivial
  | _ => exact h.goOn rfl rfl trivial

theorem RetryKept.moved (h : RetryKept s) (hstart : StartKept s) (hmoved : Moved config s t) :
    RetryKept t := by
  cases hmoved with
  | main hmain => exact h.mainStep hstart hmain
  | _ => exact ⟨h.attempts, h.waiting.beside rfl rfl, h.migrated⟩

end Retry
end CryptoCollector.Lifecycle

import CryptoCollector.Collectors.QueueDispatch

/-!
# How often a lease worker claims

The loop of `run_lease_worker` as the cycles it goes through: a claim, the work and the
terminal transition of a claimed row, and the pause that its outcome asks for. The steps
take what time they take; a sleep takes at least its duration. The shutdown channel only
ever ends the loop, so a run is a list of cycles that may stop anywhere. Durations are
nanoseconds.
-/

namespace CryptoCollector.Collectors
open DateTime

/-- `max_claims_in_window`: a bound for pauses of whole seconds. -/
def maxClaimsInWindow (windowSecs pauseSecs : ℤ) : ℤ :=
  let window := max windowSecs 0
  let pause := max pauseSecs 1
  (window + pause - 1) / pause + 1

/-- What a cycle asks for before the next claim. -/
inductive LeaseCycleOutcome where
  | continue
  | pauseBeforeNextClaim
  deriving DecidableEq, Repr

/-- What a worker brings to the loop: the end of a cycle, for each result of its work. -/
structure LeaseWorker (R : Type*) where
  finalize : R → LeaseCycleOutcome
  softSkip : R
  softSkip_pauses : finalize softSkip = .pauseBeforeNextClaim

def queueWorker : LeaseWorker (Except DispatchError DispatchOutcome) where
  finalize
    | .ok .done => .continue
    | .ok .softSkip => .pauseBeforeNextClaim
    | .error (.permanent _) => .continue
    | .error (.transient _) => .pauseBeforeNextClaim
  softSkip := .ok .softSkip
  softSkip_pauses := rfl

/-- The `finalize` of the backfill. -/
def backfillWorker : LeaseWorker (Except DispatchError ChunkOutcome) where
  finalize
    | .ok (.progress _ _) => .continue
    | .ok .softSkip => .pauseBeforeNextClaim
    | .error (.permanent _) => .continue
    | .error (.transient _) => .pauseBeforeNextClaim
  softSkip := .ok .softSkip
  softSkip_pauses := rfl

/-- What a claim brings: a row, with the result its work will have, nothing, or an error. -/
inductive ClaimAnswer (R : Type*) where
  | row (result : R)
  | empty
  | error
  deriving DecidableEq, Repr

/-- One turn of the loop: how long the claim took, what it brought, how long the work,
the end of the heartbeat and the terminal transition took, and by how much the sleep
was late. -/
structure LeaseCycle (R : Type*) where
  claimTook : ℕ
  answer : ClaimAnswer R
  workTook : ℕ
  overslept : ℕ

section Loop

variable {R : Type*} (worker : LeaseWorker R) (idleSleepMs : ℕ)

/-- The sleep at the end of a cycle: `idle_sleep` after an empty claim and when the
outcome asks for a pause, one second after a claim error. -/
def pauseAfter : ClaimAnswer R → ℕ
  | .row result =>
    match worker.finalize result with
    | .continue => 0
    | .pauseBeforeNextClaim => idleSleepMs * 1000000
  | .empty => idleSleepMs * 1000000
  | .error => 1000 * 1000000

def LeaseCycle.duration (cycle : LeaseCycle R) : ℕ :=
  cycle.claimTook + cycle.workTook + pauseAfter worker idleSleepMs cycle.answer + cycle.overslept

/-- `run_lease_worker`: the instants at which the cycles issue their claims. -/
def runLeaseWorker (start : ℤ) : List (LeaseCycle R) → List (ℤ × LeaseCycle R)
  | [] => []
  | cycle :: cycles =>
    (start, cycle) :: runLeaseWorker (start + cycle.duration worker idleSleepMs) cycles

/-- The claims issued in the closed window of so many seconds from `x` on. -/
def claimsInWindow (start x : ℤ) (windowSecs : ℕ) (cycles : List (LeaseCycle R)) :
    List (ℤ × LeaseCycle R) :=
  (runLeaseWorker worker idleSleepMs start cycles).filter fun claim =>
    x ≤ claim.1 ∧ claim.1 ≤ x + seconds windowSecs

/-- Every row claimed in the window is soft-skipped. -/
def SkippedThroughout (start x : ℤ) (windowSecs : ℕ) (cycles : List (LeaseCycle R)) : Prop :=
  ∀ claim ∈ claimsInWindow worker idleSleepMs start x windowSecs cycles, ∀ result,
    claim.2.answer = .row result → result = worker.softSkip

/-- In every run, every window throughout which the claimed rows are soft-skipped has at
most `max_claims_in_window` claims. Claims may fail when `faulty`. -/
def ClaimsBounded (faulty : Bool) (windowSecs : ℕ) : Prop :=
  ∀ (start x : ℤ) (cycles : List (LeaseCycle R)),
    (∀ cycle ∈ cycles, cycle.answer = .error → faulty = true) →
      SkippedThroughout worker idleSleepMs start x windowSecs cycles →
        ((claimsInWindow worker idleSleepMs start x windowSecs cycles).length : ℤ) ≤
          maxClaimsInWindow windowSecs (idleSleepMs / 1000 : ℕ)

/-- The least pause a cycle of such a window ends with. -/
def leastPauseMs (faulty : Bool) : ℕ := if faulty then min idleSleepMs 1000 else idleSleepMs

variable {worker idleSleepMs} {faulty : Bool} {windowSecs : ℕ} {start x : ℤ}
  {cycles : List (LeaseCycle R)}

theorem leastPauseMs_le_pauseAfter {answer : ClaimAnswer R}
    (hfaulty : answer = .error → faulty = true)
    (hskipped : ∀ result, answer = .row result → result = worker.softSkip) :
    leastPauseMs idleSleepMs faulty * 1000000 ≤ pauseAfter worker idleSleepMs answer := by
  have hidle : leastPauseMs idleSleepMs faulty ≤ idleSleepMs := by
    unfold leastPauseMs
    split_ifs <;> omega
  cases answer with
  | row result =>
    rw [hskipped result rfl]
    simp only [pauseAfter, worker.softSkip_pauses]
    omega
  | empty =>
    simp only [pauseAfter]
    omega
  | error =>
    have hpause : leastPauseMs idleSleepMs faulty ≤ 1000 := by
      rw [leastPauseMs, if_pos (hfaulty rfl)]
      exact min_le_right _ _
    simp only [pauseAfter]
    omega

theorem leastPauseMs_le_duration {cycle : LeaseCycle R}
    (hfaulty : cycle.answer = .error → faulty = true)
    (hskipped : ∀ result, cycle.answer = .row result → result = worker.softSkip) :
    leastPauseMs idleSleepMs faulty * 1000000 ≤ cycle.duration worker idleSleepMs := by
  have hpause : leastPauseMs idleSleepMs faulty * 1000000 ≤
      pauseAfter worker idleSleepMs cycle.answer := leastPauseMs_le_pauseAfter hfaulty hskipped
  unfold LeaseCycle.duration
  omega

theorem claimsInWindow_cons (cycle : LeaseCycle R) :
    claimsInWindow worker idleSleepMs start x windowSecs (cycle :: cycles) =
      (if x ≤ start ∧ start ≤ x + seconds windowSecs then [(start, cycle)] else []) ++
        claimsInWindow worker idleSleepMs (start + cycle.duration worker idleSleepMs) x windowSecs
          cycles := by
  by_cases hin : x ≤ start ∧ start ≤ x + seconds windowSecs
  · simp [claimsInWindow, runLeaseWorker, hin]
  · simp [claimsInWindow, runLeaseWorker, hin]

/-- The claims of a window lie a pause apart, and so fit into it. -/
theorem claims_fit (hfaulty : ∀ cycle ∈ cycles, cycle.answer = .error → faulty = true)
    (hskipped : SkippedThroughout worker idleSleepMs start x windowSecs cycles) :
    claimsInWindow worker idleSleepMs start x windowSecs cycles = [] ∨
      (((claimsInWindow worker idleSleepMs start x windowSecs cycles).length : ℤ) - 1) *
          (leastPauseMs idleSleepMs faulty * 1000000) + max start x ≤ x + seconds windowSecs := by
  induction cycles generalizing start with
  | nil => exact Or.inl rfl
  | cons cycle cycles ih =>
    rw [SkippedThroughout, claimsInWindow_cons] at hskipped
    rw [claimsInWindow_cons]
    have hrest := @ih (start + cycle.duration worker idleSleepMs)
      (fun later hlater => hfaulty later (List.mem_cons_of_mem _ hlater))
      (fun claim hclaim => hskipped claim (List.mem_append_right _ hclaim))
    by_cases hin : x ≤ start ∧ start ≤ x + seconds windowSecs
    · rw [if_pos hin] at hskipped ⊢
      right
      have hduration : leastPauseMs idleSleepMs faulty * 1000000 ≤
          cycle.duration worker idleSleepMs :=
        leastPauseMs_le_duration (hfaulty cycle List.mem_cons_self) fun result =>
          hskipped (start, cycle) (List.mem_append_left _ List.mem_cons_self) result
      rcases hrest with hnone | hfit
      · rw [hnone]
        simp only [List.append_nil, List.length_singleton]
        omega
      · rw [List.length_append, List.length_singleton]
        push_cast
        have hduration' : (leastPauseMs idleSleepMs faulty : ℤ) * 1000000 ≤
            cycle.duration worker idleSleepMs := by exact_mod_cast hduration
        have hafter : max (start + cycle.duration worker idleSleepMs) x =
            start + cycle.duration worker idleSleepMs := by omega
        have hnow : max start x = start := by omega
        rw [hafter] at hfit
        rw [hnow]
        linarith
    · rw [if_neg hin, List.nil_append]
      rcases hrest with hnone | hfit
      · exact Or.inl hnone
      · right
        have hlater : max start x ≤ max (start + cycle.duration worker idleSleepMs) x := by omega
        linarith

theorem fitting_le_windowSecs {m : ℤ} (hm : 0 ≤ m)
    (hfit : m * leastPauseMs idleSleepMs faulty ≤ 1000 * windowSecs)
    (hidle : 1000 * windowSecs < idleSleepMs * (windowSecs + 1)) (hshort : idleSleepMs < 2000) :
    m ≤ windowSecs := by
  have hidle' : (1000 : ℤ) * windowSecs < idleSleepMs * (windowSecs + 1) := by exact_mod_cast hidle
  by_cases hsecond : idleSleepMs < 1000
  · have hleast : leastPauseMs idleSleepMs faulty = idleSleepMs := by
      unfold leastPauseMs
      split_ifs <;> omega
    rw [hleast] at hfit
    have hlt : m * idleSleepMs < (windowSecs + 1) * idleSleepMs := by linarith
    have hstrict := lt_of_mul_lt_mul_right hlt (Int.natCast_nonneg _)
    omega
  · have hleast : 1000 ≤ leastPauseMs idleSleepMs faulty := by
      unfold leastPauseMs
      split_ifs <;> omega
    have hmul : m * 1000 ≤ m * leastPauseMs idleSleepMs faulty :=
      mul_le_mul_of_nonneg_left (by exact_mod_cast hleast) hm
    omega

/-- The claims that fit are no more than the bound, for the pauses of the condition. -/
theorem fitting_le_maxClaims {m : ℤ} (hm : 0 ≤ m)
    (hfit : m * leastPauseMs idleSleepMs faulty ≤ 1000 * windowSecs)
    (hidle : 1000 * windowSecs < idleSleepMs * (windowSecs + 1))
    (hfaults : faulty = true → idleSleepMs < 2000 ∨ windowSecs ≤ 1) :
    m + 1 ≤ maxClaimsInWindow windowSecs (idleSleepMs / 1000 : ℕ) := by
  have hcast : ((idleSleepMs / 1000 : ℕ) : ℤ) = (idleSleepMs : ℤ) / 1000 := by norm_num
  have hpos : 0 < max ((idleSleepMs : ℤ) / 1000) 1 := lt_max_of_lt_right one_pos
  suffices hceil : m * max ((idleSleepMs : ℤ) / 1000) 1 ≤
      windowSecs + max ((idleSleepMs : ℤ) / 1000) 1 - 1 by
    have hwindow : max (windowSecs : ℤ) 0 = windowSecs := by omega
    simp only [maxClaimsInWindow, hcast, hwindow]
    have hdiv := (Int.le_ediv_iff_mul_le hpos).mpr hceil
    omega
  by_cases hshort : idleSleepMs < 2000
  · -- pauses below two seconds count as one second, or are rounded down to it
    have hone : max ((idleSleepMs : ℤ) / 1000) 1 = 1 := by omega
    have hle := fitting_le_windowSecs hm hfit hidle hshort
    rw [hone]
    omega
  · cases faulty with
    | false =>
      have hsecs : max ((idleSleepMs : ℤ) / 1000) 1 = (idleSleepMs : ℤ) / 1000 := by omega
      have hmul : m * (1000 * ((idleSleepMs : ℤ) / 1000)) ≤ m * idleSleepMs :=
        mul_le_mul_of_nonneg_left (by omega) hm
      have hleast : leastPauseMs idleSleepMs false = idleSleepMs := rfl
      rw [hleast] at hfit
      rw [hsecs]
      have hassoc : m * (1000 * ((idleSleepMs : ℤ) / 1000)) =
          1000 * (m * ((idleSleepMs : ℤ) / 1000)) := by ring
      omega
    | true =>
      have hwindow := (hfaults rfl).resolve_left hshort
      have hleast : leastPauseMs idleSleepMs true = 1000 := by
        unfold leastPauseMs
        rw [if_pos rfl]
        omega
      rw [hleast] at hfit
      push_cast at hfit
      have hle : m ≤ windowSecs := by omega
      obtain rfl | rfl : m = 0 ∨ m = 1 := by omega
      · omega
      · omega

theorem claimsInWindow_replicate (cycle : LeaseCycle R) (n : ℕ) {start x : ℤ} (hstart : x ≤ start)
    (hfit : (n : ℤ) * cycle.duration worker idleSleepMs ≤
      x + seconds windowSecs - start + cycle.duration worker idleSleepMs) :
    (claimsInWindow worker idleSleepMs start x windowSecs (List.replicate n cycle)).length = n := by
  induction n generalizing start with
  | zero => rfl
  | succ n ih =>
    push_cast at hfit
    have hduration : 0 ≤ (n : ℤ) * cycle.duration worker idleSleepMs := by positivity
    have hin : x ≤ start ∧ start ≤ x + seconds windowSecs := ⟨hstart, by linarith⟩
    have hrest := @ih (start + cycle.duration worker idleSleepMs) (by omega) (by linarith)
    rw [List.replicate_succ, claimsInWindow_cons, if_pos hin, List.length_append, hrest,
      List.length_singleton]
    omega

theorem mem_claimsInWindow_replicate {cycle : LeaseCycle R} {n : ℕ} {start x : ℤ}
    {claim : ℤ × LeaseCycle R} (hclaim : claim ∈ claimsInWindow worker idleSleepMs start x
      windowSecs (List.replicate n cycle)) : claim.2 = cycle := by
  induction n generalizing start with
  | zero => cases hclaim
  | succ n ih =>
    rw [List.replicate_succ, claimsInWindow_cons, List.mem_append] at hclaim
    rcases hclaim with hfirst | hrest
    · split_ifs at hfirst
      · rw [List.mem_singleton.mp hfirst]
      · cases hfirst
    · exact ih hrest

/-- A run of soft skips without delay. -/
def skips (worker : LeaseWorker R) (n : ℕ) : List (LeaseCycle R) :=
  List.replicate n ⟨0, .row worker.softSkip, 0, 0⟩

/-- A run of failing claims without delay. -/
def failures (n : ℕ) : List (LeaseCycle R) := List.replicate n ⟨0, .error, 0, 0⟩

theorem skipped_skips {n : ℕ} :
    SkippedThroughout worker idleSleepMs 0 0 windowSecs (skips worker n) := by
  intro claim hclaim result hresult
  rw [mem_claimsInWindow_replicate hclaim] at hresult
  cases hresult
  rfl

theorem skipped_failures {n : ℕ} :
    SkippedThroughout worker idleSleepMs 0 0 windowSecs (failures n) := by
  intro claim hclaim result hresult
  rw [mem_claimsInWindow_replicate hclaim] at hresult
  cases hresult

theorem skips_exceed (hshort : idleSleepMs * (windowSecs + 1) ≤ 1000 * windowSecs) :
    maxClaimsInWindow windowSecs (idleSleepMs / 1000 : ℕ) <
      ((claimsInWindow worker idleSleepMs 0 0 windowSecs (skips worker (windowSecs + 2))).length :
        ℤ) := by
  have hsecond : idleSleepMs < 1000 := by nlinarith
  have hpause : idleSleepMs / 1000 = 0 := by omega
  have hcount : (claimsInWindow worker idleSleepMs 0 0 windowSecs
      (skips worker (windowSecs + 2))).length = windowSecs + 2 := by
    apply claimsInWindow_replicate _ _ le_rfl
    simp only [LeaseCycle.duration, pauseAfter, worker.softSkip_pauses, seconds]
    push_cast
    have hshort' : (idleSleepMs : ℤ) * (windowSecs + 1) ≤ 1000 * windowSecs := by
      exact_mod_cast hshort
    linarith
  rw [hcount, hpause, maxClaimsInWindow]
  simp

/-- Failing claims come every second, however long the pause. -/
theorem failures_exceed (hlong : 2000 ≤ idleSleepMs) (hwindow : 2 ≤ windowSecs) :
    maxClaimsInWindow windowSecs (idleSleepMs / 1000 : ℕ) <
      ((claimsInWindow worker idleSleepMs 0 0 windowSecs (failures (windowSecs + 1))).length :
        ℤ) := by
  have hcount : (claimsInWindow worker idleSleepMs 0 0 windowSecs
      (failures (windowSecs + 1))).length = windowSecs + 1 := by
    apply claimsInWindow_replicate _ _ le_rfl
    simp only [LeaseCycle.duration, pauseAfter, seconds]
    push_cast
    linarith
  have hcast : ((idleSleepMs / 1000 : ℕ) : ℤ) = (idleSleepMs : ℤ) / 1000 := by norm_num
  have hpause : max ((idleSleepMs : ℤ) / 1000) 1 = (idleSleepMs : ℤ) / 1000 := by omega
  have hmax : max (windowSecs : ℤ) 0 = windowSecs := by omega
  simp only [maxClaimsInWindow, hcount, hcast, hpause, hmax]
  have hpos : (0 : ℤ) < idleSleepMs / 1000 := by omega
  have htwo : (2 : ℤ) ≤ idleSleepMs / 1000 := by omega
  have hceil : ((windowSecs : ℤ) + idleSleepMs / 1000 - 1) / (idleSleepMs / 1000) < windowSecs := by
    rw [Int.ediv_lt_iff_lt_mul hpos]
    have hwindow' : (2 : ℤ) ≤ windowSecs := by exact_mod_cast hwindow
    nlinarith
  push_cast
  omega

/-- One loop keeps to `max_claims_in_window` when its pause is not much shorter than a
second, and when it is shorter than two seconds if claims can fail. -/
theorem claimsBounded_iff (worker : LeaseWorker R) (idleSleepMs : ℕ) (faulty : Bool)
    (windowSecs : ℕ) :
    ClaimsBounded worker idleSleepMs faulty windowSecs ↔
      1000 * windowSecs < idleSleepMs * (windowSecs + 1) ∧
        (faulty = true → idleSleepMs < 2000 ∨ windowSecs ≤ 1) := by
  constructor
  · intro hbounded
    constructor
    · by_contra hshort
      have hle := hbounded 0 0 (skips worker (windowSecs + 2))
        (fun cycle hcycle herror => by
          rw [List.eq_of_mem_replicate hcycle] at herror
          cases herror) skipped_skips
      exact absurd hle (not_le.mpr (skips_exceed (not_lt.mp hshort)))
    · intro hfaulty
      by_contra hlong
      push Not at hlong
      have hle := hbounded 0 0 (failures (windowSecs + 1)) (fun _ _ _ => hfaulty) skipped_failures
      exact absurd hle (not_le.mpr (failures_exceed hlong.1 hlong.2))
  · rintro ⟨hidle, hfaults⟩ start x cycles hfaulty hskipped
    rcases claims_fit hfaulty hskipped with hnone | hfit
    · have hceil := @fitting_le_maxClaims idleSleepMs faulty windowSecs 0 le_rfl (by simp) hidle
        hfaults
      rw [hnone, List.length_nil]
      omega
    · set claims := claimsInWindow worker idleSleepMs start x windowSecs cycles
      rcases Nat.eq_zero_or_pos claims.length with hzero | hpos
      · have hceil := @fitting_le_maxClaims idleSleepMs faulty windowSecs 0 le_rfl (by simp) hidle
          hfaults
        rw [hzero]
        omega
      · have hceil := @fitting_le_maxClaims idleSleepMs faulty windowSecs (claims.length - 1)
          (by omega) (by
            have hx : x ≤ max start x := le_max_right _ _
            have hwindow : seconds windowSecs = windowSecs * 1000000000 := rfl
            rw [hwindow] at hfit
            linarith) hidle hfaults
        omega

end Loop

/-- Half a second of pause: three claims in a second, for a bound of two. -/
theorem queueWorker_outpaces_bound : ¬ ClaimsBounded queueWorker 500 false 1 := by
  intro hbounded
  have hle := hbounded 0 0 (skips queueWorker 3)
    (fun cycle hcycle herror => by
      rw [List.eq_of_mem_replicate hcycle] at herror
      cases herror) skipped_skips
  exact absurd hle (by decide)

end CryptoCollector.Collectors

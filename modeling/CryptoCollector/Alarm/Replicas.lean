import CryptoCollector.Alarm.FastClear

/-!
# Several replicas, one Alarm Center

Each replica sweeps with a reconciler of its own, over its own registry and the
shared database; the Alarm Center is a service that knows an alarm by its
fingerprint, which names no replica. Sweeps come in any order, and no alarm expires.
-/

namespace CryptoCollector.Alarm
open Foundations

/-- The Alarm Center: a raised alarm is active until it is cleared. -/
structure AlarmCenter (σ : Type*) where
  active : σ → String → Bool
  handle : σ → ClientCall → σ
  raised : ∀ st spec, active (handle st (.raise spec)) spec.fingerprint = true
  kept : ∀ st call f, call ≠ .clear f → active st f = true → active (handle st call) f = true

/-- The replicas, what each raised in its latest sweep, and the center. -/
structure Fleet (ι σ : Type*) where
  replicas : ι → Reconciler
  latest : ι → List Condition
  center : σ

def Fleet.start {ι σ : Type*} (center : σ) : Fleet ι σ :=
  ⟨fun _ => .new, fun _ => [], center⟩

variable {ι σ : Type*} [DecidableEq ι] {center : AlarmCenter σ}

/-- The replica `a.1` sweeps with the readings `a.2`. -/
def fleetStep (center : AlarmCenter σ) (fleet : Fleet ι σ) (a : ι × SweepReadings) :
    Option (Fleet ι σ) :=
  let swept := (fleet.replicas a.1).sweepOnce a.2
  some ⟨Function.update fleet.replicas a.1 swept.1,
    Function.update fleet.latest a.1 ((fleet.replicas a.1).conditions a.2),
    swept.2.foldl center.handle fleet.center⟩

section Calls

variable {calls : List ClientCall} {f : String}

namespace AlarmCenter

theorem kept_calls {st : σ} (hactive : center.active st f = true) (hclear : .clear f ∉ calls) :
    center.active (calls.foldl center.handle st) f = true := by
  induction calls generalizing st with
  | nil => exact hactive
  | cons call calls ih =>
    rw [List.mem_cons, not_or] at hclear
    exact ih (center.kept st call f (Ne.symm hclear.1) hactive) hclear.2

theorem active_calls (st : σ) (hraise : ∃ spec, .raise spec ∈ calls ∧ spec.fingerprint = f)
    (hclear : .clear f ∉ calls) : center.active (calls.foldl center.handle st) f = true := by
  obtain ⟨spec, hmem, rfl⟩ := hraise
  obtain ⟨before, after, rfl⟩ := List.append_of_mem hmem
  rw [List.foldl_append, List.foldl_cons]
  refine kept_calls (center.raised _ spec) ?_
  intro hlater
  exact hclear (List.mem_append_right _ (List.mem_cons_of_mem _ hlater))

end AlarmCenter

theorem fingerprint_raisedSpec (s : SweepReadings) (c : Condition) :
    (Reconciler.raisedSpec s c).fingerprint = fingerprint c := by
  unfold Reconciler.raisedSpec
  split <;> rfl

/-- A sweep raises each condition it finds active and does not clear it. -/
theorem sweepOnce_raises {r : Reconciler} {s : SweepReadings} {c : Condition}
    (hderived : c ≠ .startupConfigError) (hactive : observed r s c = some true) :
    (∃ spec, .raise spec ∈ (r.sweepOnce s).2 ∧ spec.fingerprint = fingerprint c) ∧
      .clear (fingerprint c) ∉ (r.sweepOnce s).2 := by
  constructor
  · refine ⟨Reconciler.raisedSpec s c, ?_, fingerprint_raisedSpec s c⟩
    have hraised := List.mem_map_of_mem
      (f := fun c => ClientCall.raise (Reconciler.raisedSpec s c)) (mem_conditions_iff.mpr hactive)
    exact List.mem_append_left _ (List.mem_append_right _ hraised)
  · intro hclear
    rcases clear_mem_sweepOnce.mp hclear with ⟨-, hf⟩ | ⟨-, -, hundesired, -⟩
    · exact hderived (fingerprint_injective hf)
    · exact hundesired (fingerprint_mem_desired.mpr hactive)

end Calls

section Runs

variable {fleet fleet' : Fleet ι σ}

/-- What a replica has on record as active it raised in its latest sweep. -/
def RecordsLatest (fleet : Fleet ι σ) : Prop :=
  ∀ i, ∀ a ∈ (fleet.replicas i).previouslyActive.rows,
    ∃ c ∈ fleet.latest i, a = (fingerprint c, severity c)

theorem RecordsLatest.preserved {a : ι × SweepReadings} (hinv : RecordsLatest fleet)
    (h : fleetStep center fleet a = some fleet') : RecordsLatest fleet' := by
  cases h
  intro i b hb
  by_cases hi : i = a.1
  · simp only [hi, Function.update_self] at hb ⊢
    obtain ⟨c, hc, rfl⟩ := List.mem_map.mp (mem_of_mem_collect hb)
    exact ⟨c, hc, rfl⟩
  · simp only [Function.update_of_ne hi] at hb ⊢
    exact hinv i b hb

theorem RecordsLatest.of_run {st : σ} {sweeps : List (ι × SweepReadings)}
    (hrun : exec (fleetStep center) (Fleet.start st) sweeps = some fleet) : RecordsLatest fleet :=
  exec_invariant (fun _ _ _ hinv h => hinv.preserved h)
    (fun _ _ ha => absurd ha List.not_mem_nil) hrun

end Runs

/-- After any run, a replica fast-clears a sweep-derived alarm only if it raised the
alarm in its own latest sweep and does not find its condition active now; and from
then on every sweep that finds the condition active, whoever makes it, raises the
alarm, does not clear it and leaves it active at the center. -/
theorem fleet_fastClear_own {fleet : Fleet ι σ} {st : σ} {sweeps : List (ι × SweepReadings)}
    (hrun : exec (fleetStep center) (Fleet.start st) sweeps = some fleet) (i : ι)
    (s : SweepReadings) (c : Condition) (hderived : c ≠ .startupConfigError)
    (hclear : .clear (fingerprint c) ∈ ((fleet.replicas i).sweepOnce s).2) :
    (c ∈ fleet.latest i ∧ (severity c).fastClears ∧
        observed (fleet.replicas i) s c ≠ some true) ∧
      ∀ more later, exec (fleetStep center) fleet ((i, s) :: more) = some later →
        ∀ j s' healed, fleetStep center later (j, s') = some healed →
          observed (later.replicas j) s' c = some true →
            c ∈ healed.latest j ∧
              (∃ spec, .raise spec ∈ ((later.replicas j).sweepOnce s').2 ∧
                spec.fingerprint = fingerprint c) ∧
              .clear (fingerprint c) ∉ ((later.replicas j).sweepOnce s').2 ∧
              center.active healed.center (fingerprint c) = true := by
  constructor
  · rcases clear_mem_sweepOnce.mp hclear with ⟨-, hf⟩ | ⟨sev, hrow, hundesired, hclears⟩
    · exact absurd (fingerprint_injective hf) hderived
    · obtain ⟨d, hd, heq⟩ := RecordsLatest.of_run hrun i _ hrow
      rw [Prod.mk.injEq] at heq
      obtain rfl : c = d := fingerprint_injective heq.1
      rw [fingerprint_mem_desired] at hundesired
      exact ⟨hd, heq.2 ▸ hclears, hundesired⟩
  · intro more later _ j s' healed hhealed hactive
    cases hhealed
    obtain ⟨hraise, hkept⟩ := sweepOnce_raises hderived hactive
    exact ⟨by simpa using mem_conditions_iff.mpr hactive, hraise, hkept,
      AlarmCenter.active_calls _ hraise hkept⟩

/-- A center that is the set of its active alarms. -/
def plainCenter : AlarmCenter (String → Bool) where
  active st := st
  handle st
    | .raise spec => Function.update st spec.fingerprint true
    | .clear f => Function.update st f false
  raised st spec := by simp
  kept st call f hcall hactive := by
    cases call with
    | raise spec =>
      by_cases hf : f = spec.fingerprint
      · simp [hf]
      · simpa [hf] using hactive
    | clear g =>
      have hother : f ≠ g := fun heq => hcall (congrArg ClientCall.clear heq.symm)
      simpa [hother] using hactive

/-- Readings of a process whose last twenty upserts failed. -/
def failingUpserts (now : ℤ) : SweepReadings :=
  { calmReadings now (some [⟨"binance", none, none, 0⟩]) with
    upserts := { HealthRegistry.new with upsertFailureStreak := 20 } }

/-- Readings of a process whose upserts succeed, over the same database. -/
def healthyUpserts (now : ℤ) : SweepReadings :=
  calmReadings now (some [⟨"binance", none, none, 0⟩])

/-- Both replicas raise the alarm; the one that recovers clears it while it stands in
the other's latest sweep. -/
theorem fleet_clears_other :
    ∃ fleet : Fleet Bool (String → Bool), exec (fleetStep plainCenter) (Fleet.start fun _ => false)
        [(true, failingUpserts 0), (false, failingUpserts 1)] = some fleet ∧
      .dbUpsertFailures ∈ fleet.latest false ∧ severity .dbUpsertFailures = .error ∧
      .clear (fingerprint .dbUpsertFailures) ∈
        ((fleet.replicas true).sweepOnce (healthyUpserts 30000000000)).2 :=
  ⟨_, rfl, by decide, rfl, by decide⟩

/-- The alarm is gone from the center when the other replica sweeps again, and then it is
back. -/
theorem fleet_fastClear_own_healed :
    ∃ fleet later healed : Fleet Bool (String → Bool),
      exec (fleetStep plainCenter) (Fleet.start fun _ => false)
          [(true, failingUpserts 0), (false, failingUpserts 1)] = some fleet ∧
        .dbUpsertFailures ∈ fleet.latest true ∧
        exec (fleetStep plainCenter) fleet [(true, healthyUpserts 30000000000)] = some later ∧
        later.center (fingerprint .dbUpsertFailures) = false ∧
        fleetStep plainCenter later (false, failingUpserts 30000000001) = some healed ∧
        healed.center (fingerprint .dbUpsertFailures) = true := by
  have hrun : exec (fleetStep plainCenter) (Fleet.start (ι := Bool) fun _ => false)
      [(true, failingUpserts 0), (false, failingUpserts 1)] = some _ := rfl
  obtain ⟨⟨hlatest, -, -⟩, hheals⟩ := fleet_fastClear_own hrun true (healthyUpserts 30000000000)
    .dbUpsertFailures (by decide) (by decide)
  refine ⟨_, _, _, hrun, hlatest, rfl, by decide, rfl, ?_⟩
  exact (hheals [] _ rfl false (failingUpserts 30000000001) _ rfl (by decide)).2.2.2

end CryptoCollector.Alarm

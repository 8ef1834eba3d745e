import CryptoCollector.Foundations.Runs
import CryptoCollector.Time

/-!
# The upstream request pacer

One row of `upstream_request_pacer` governs a provider's outbound requests for
the whole fleet. Every SQL statement on it is one atomic step at the database
clock; replicas interleave statements freely. The bookkeeping column
`updated_at` is read by nothing and is left out.
-/

namespace CryptoCollector.Pacer
open Foundations DateTime

/-- The columns of an `upstream_request_pacer` row the pacer reads. -/
structure PacerRow where
  nextAllowedAt : ℤ
  minGapMs : ℤ
  cooldownUntil : Option ℤ
  creditWindowStart : ℤ
  creditsUsed : ℤ
  creditLimit : Option ℤ
  deriving DecidableEq, Repr

inductive PacerDecision where
  | allow (nextAllowedAt : ℤ)
  | cooldown (expiry : ℤ)
  | creditExhausted
  deriving DecidableEq, Repr

/-- `pacer_decision`: the cooldown gate, then the monthly credit gate. -/
def pacerDecision (cooldownUntil creditLimit : Option ℤ) (creditsUsed nextAllowedAt now : ℤ) :
    PacerDecision :=
  let creditGate :=
    match creditLimit with
    | some limit => if creditsUsed ≥ limit then .creditExhausted else .allow nextAllowedAt
    | none => .allow nextAllowedAt
  match cooldownUntil with
  | some expiry => if expiry > now then .cooldown expiry else creditGate
  | none => creditGate

/-- Errors of `acquire_slot`; `db` carries the text of the driver's error. -/
inductive AcquireSlotError where
  | cooldown (provider : String) (expiry : ℤ)
  | creditExhausted (provider : String)
  | notFound (provider : String)
  | contended (provider : String)
  | db (message : String)
  deriving DecidableEq, Repr

/-- `classify_blocked`: the error for a refused slot, from the diagnostic
re-read `(cooldown_until, credit_limit, credits_used)`. -/
def classifyBlocked (provider : String) (row : Option (Option ℤ × Option ℤ × ℤ)) (now : ℤ) :
    AcquireSlotError :=
  match row with
  | none => .notFound provider
  | some (cooldownUntil, creditLimit, creditsUsed) =>
    let creditGate : AcquireSlotError :=
      if creditLimit.any (fun limit => creditsUsed ≥ limit) then
        .creditExhausted provider
      else
        .contended provider
    match cooldownUntil with
    | some expiry => if expiry > now then .cooldown provider expiry else creditGate
    | none => creditGate

def pacerBacklogWarnMs : ℤ := 60000

/-- `sleep_plan`: the full wait in milliseconds and whether it is a backlog.
`num_milliseconds` truncates toward zero. -/
def sleepPlan (nextAt now : ℤ) : ℤ × Bool :=
  let ms := (nextAt - now).tdiv 1000000
  if ms ≤ 0 then (0, false) else (ms, decide (ms > pacerBacklogWarnMs))

/-- The end of `acquire_slot`, given what its two statements returned: the wait
before the slot opens, or the reason it was refused. -/
def acquireOutcome (provider : String) (reserved : Option ℤ)
    (diagnosed : Option (Option ℤ × Option ℤ × ℤ)) (now : ℤ) :
    Except AcquireSlotError ℤ :=
  match reserved with
  | some nextAt => .ok (sleepPlan nextAt now).1
  | none => .error (classifyBlocked provider diagnosed now)

/-- The `WHERE` clause of the reservation. -/
def slotOpen (row : PacerRow) (now : ℤ) : Prop :=
  (∀ expiry ∈ row.cooldownUntil, expiry ≤ now) ∧
    (∀ limit ∈ row.creditLimit, row.creditsUsed < limit)

instance (row : PacerRow) (now : ℤ) : Decidable (slotOpen row now) :=
  inferInstanceAs (Decidable (_ ∧ _))

/-- The reservation of `acquire_slot`, step 2; `none` when a gate blocks. -/
def reserveSlot (row : PacerRow) (now : ℤ) : Option PacerRow :=
  if slotOpen row now then
    some { row with
      nextAllowedAt := max now row.nextAllowedAt + milliseconds row.minGapMs
      creditsUsed := row.creditsUsed + 1 }
  else
    none

/-- `INTERVAL '1 month'` as an interval comparison reads it: thirty days. -/
def oneMonth : ℤ := days 30

def resetCreditWindowIfNeeded (row : PacerRow) (now : ℤ) : PacerRow :=
  if now - row.creditWindowStart ≥ oneMonth then
    { row with creditsUsed := 0, creditWindowStart := now }
  else
    row

/-- `signal_cooldown` at the replica's own clock. The epoch stands in for a
missing cooldown; the `u64` argument is cast to `i64`. -/
def signalCooldown (row : PacerRow) (replicaNow : ℤ) (cooldownMs : UInt64) : PacerRow :=
  let cooldownUntil := replicaNow + milliseconds cooldownMs.toInt64.toInt
  { row with
    cooldownUntil :=
      some (max (row.cooldownUntil.getD (fromTimestamp 0)) (storeTimestamptz cooldownUntil)) }

theorem pacerDecision_eq_allow_iff {row : PacerRow} {now next : ℤ} :
    pacerDecision row.cooldownUntil row.creditLimit row.creditsUsed next now = .allow next ↔
      slotOpen row now := by
  unfold pacerDecision slotOpen
  cases row.cooldownUntil <;> cases row.creditLimit <;> simp
  split_ifs <;> simp <;> omega

/-- The reservation is refused exactly when the pure mirror refuses. -/
theorem reserveSlot_isSome_iff (row : PacerRow) (now next : ℤ) :
    (reserveSlot row now).isSome ↔
      pacerDecision row.cooldownUntil row.creditLimit row.creditsUsed next now = .allow next := by
  rw [pacerDecision_eq_allow_iff]
  simp [reserveSlot]

theorem reserveSlot_eq_some {row row' : PacerRow} {now : ℤ}
    (h : reserveSlot row now = some row') :
    slotOpen row now ∧ row' = { row with
      nextAllowedAt := max now row.nextAllowedAt + milliseconds row.minGapMs
      creditsUsed := row.creditsUsed + 1 } := by
  unfold reserveSlot at h
  split_ifs at h with hopen
  exact ⟨hopen, (Option.some.inj h).symm⟩

/-- What `classify_blocked` reports for the row's columns, against the pure
decision on the same columns and instant. -/
def classification (provider : String) : PacerDecision → AcquireSlotError
  | .allow _ => .contended provider
  | .cooldown expiry => .cooldown provider expiry
  | .creditExhausted => .creditExhausted provider

theorem classifyBlocked_eq_classification (provider : String) (row : PacerRow) (now next : ℤ) :
    classifyBlocked provider (some (row.cooldownUntil, row.creditLimit, row.creditsUsed)) now =
      classification provider
        (pacerDecision row.cooldownUntil row.creditLimit row.creditsUsed next now) := by
  unfold classifyBlocked pacerDecision
  cases row.cooldownUntil <;> cases row.creditLimit <;> simp
  · rfl
  · split_ifs <;> rfl
  · split_ifs <;> rfl
  · split_ifs <;> rfl

/-- One atomic statement on the row. `now` is the database clock; a signal also
reads the replica's own clock. -/
inductive PacerStatement where
  | reset (now : ℤ)
  | reserve (now : ℤ)
  | signal (now replicaNow : ℤ) (cooldownMs : UInt64)
  deriving DecidableEq, Repr

/-- What a statement did, for the record. -/
inductive PacerEvent where
  | granted (now nextAllowedAt : ℤ)
  | windowStarted (now : ℤ)
  | signalled (expiry : ℤ)
  deriving DecidableEq, Repr

/-- The row, the database clock, and every event so far, newest first. -/
structure PacerState where
  row : PacerRow
  clock : ℤ
  log : List PacerEvent
  deriving DecidableEq, Repr

/-- One statement; `none` when its clock reading would run backwards. -/
def step (s : PacerState) : PacerStatement → Option PacerState
  | .reset now =>
    if s.clock ≤ now then
      if now - s.row.creditWindowStart ≥ oneMonth then
        some ⟨resetCreditWindowIfNeeded s.row now, now, .windowStarted now :: s.log⟩
      else
        some ⟨resetCreditWindowIfNeeded s.row now, now, s.log⟩
    else
      none
  | .reserve now =>
    if s.clock ≤ now then
      match reserveSlot s.row now with
      | some row => some ⟨row, now, .granted now row.nextAllowedAt :: s.log⟩
      | none => some { s with clock := now }
    else
      none
  | .signal now replicaNow cooldownMs =>
    if s.clock ≤ now then
      let expiry := storeTimestamptz (replicaNow + milliseconds cooldownMs.toInt64.toInt)
      some ⟨signalCooldown s.row replicaNow cooldownMs, now, .signalled expiry :: s.log⟩
    else
      none

/-- The reserved instants of the grants, newest first. -/
def reservations : List PacerEvent → List ℤ
  | [] => []
  | .granted _ next :: log => next :: reservations log
  | .windowStarted _ :: log => reservations log
  | .signalled _ :: log => reservations log

/-- How many slots were granted since the newest window reset. -/
def windowGrants : List PacerEvent → ℕ
  | [] => 0
  | .granted _ _ :: log => windowGrants log + 1
  | .windowStarted _ :: _ => 0
  | .signalled _ :: log => windowGrants log

/-- A cooldown column that has not moved back; a missing one is the least. -/
def cooldownLe (earlier later : Option ℤ) : Prop :=
  ∀ expiry ∈ earlier, ∃ expiry' ∈ later, expiry ≤ expiry'

/-- Every grant of the log came at or after each cooldown signalled before it. -/
def CooldownsRespected : List PacerEvent → Prop
  | [] => True
  | .granted now _ :: log =>
    (∀ expiry, .signalled expiry ∈ log → expiry ≤ now) ∧ CooldownsRespected log
  | .windowStarted _ :: log => CooldownsRespected log
  | .signalled _ :: log => CooldownsRespected log

/-- A provider's row as the migrations seed it: no credit used, a budget that is
absent or not negative, nothing on record. -/
structure Seeded (s : PacerState) : Prop where
  creditsUsed : s.row.creditsUsed = 0
  creditLimit : ∀ limit ∈ s.row.creditLimit, 0 ≤ limit
  log : s.log = []

/-- What holds of the row and the log after any sequence of statements. -/
structure PacerInvariant (s : PacerState) : Prop where
  spaced : (reservations s.log).IsChain fun newer older =>
    older + milliseconds s.row.minGapMs ≤ newer
  newest : ∀ next ∈ (reservations s.log).head?, next = s.row.nextAllowedAt
  credits : s.row.creditsUsed = windowGrants s.log
  budget : ∀ limit ∈ s.row.creditLimit, s.row.creditsUsed ≤ limit
  nonneg : ∀ limit ∈ s.row.creditLimit, 0 ≤ limit
  signalled : ∀ expiry, .signalled expiry ∈ s.log → ∃ c ∈ s.row.cooldownUntil, expiry ≤ c
  respected : CooldownsRespected s.log

theorem step_cases {s t : PacerState} {statement : PacerStatement}
    (h : step s statement = some t) :
    (∃ now row, statement = .reserve now ∧ reserveSlot s.row now = some row ∧
      t = ⟨row, now, .granted now row.nextAllowedAt :: s.log⟩) ∨
    (∃ now, t = ⟨{ s.row with creditsUsed := 0, creditWindowStart := now }, now,
      .windowStarted now :: s.log⟩) ∨
    (∃ now expiry, t = ⟨{ s.row with
        cooldownUntil := some (max (s.row.cooldownUntil.getD (fromTimestamp 0)) expiry) },
      now, .signalled expiry :: s.log⟩) ∨
    (∃ now, t = { s with clock := now }) := by
  cases statement with
  | reset now =>
    by_cases hwindow : now - s.row.creditWindowStart ≥ oneMonth
    · simp only [step, resetCreditWindowIfNeeded, if_pos hwindow] at h
      split_ifs at h
      exact Or.inr (Or.inl ⟨now, (Option.some.inj h).symm⟩)
    · simp only [step, resetCreditWindowIfNeeded, if_neg hwindow] at h
      split_ifs at h
      exact Or.inr (Or.inr (Or.inr ⟨now, (Option.some.inj h).symm⟩))
  | reserve now =>
    cases hrow : reserveSlot s.row now with
    | none =>
      simp only [step, hrow] at h
      split_ifs at h
      exact Or.inr (Or.inr (Or.inr ⟨now, (Option.some.inj h).symm⟩))
    | some row =>
      simp only [step, hrow] at h
      split_ifs at h
      exact Or.inl ⟨now, row, rfl, hrow, (Option.some.inj h).symm⟩
  | signal now replicaNow cooldownMs =>
    simp only [step] at h
    split_ifs at h
    exact Or.inr (Or.inr (Or.inl ⟨now, _, (Option.some.inj h).symm⟩))

theorem Seeded.invariant {s : PacerState} (h : Seeded s) : PacerInvariant s where
  spaced := by simp [h.log, reservations]
  newest := by simp [h.log, reservations]
  credits := by simp [h.log, h.creditsUsed, windowGrants]
  budget := by simpa [h.creditsUsed] using h.creditLimit
  nonneg := h.creditLimit
  signalled := by simp [h.log]
  respected := by simp [h.log, CooldownsRespected]

/-- A grant keeps the invariant: the reservation moves on by the gap, the gates
bound the credits and the cooldowns. -/
theorem PacerInvariant.grant {s : PacerState} {row : PacerRow} {now : ℤ}
    (hinv : PacerInvariant s) (hreserve : reserveSlot s.row now = some row) :
    PacerInvariant ⟨row, now, .granted now row.nextAllowedAt :: s.log⟩ := by
  obtain ⟨⟨hcooldown, hcredit⟩, rfl⟩ := reserveSlot_eq_some hreserve
  refine ⟨?_, ?_, ?_, ?_, hinv.nonneg, ?_, ?_⟩
  · simp only [reservations, List.isChain_cons]
    refine ⟨?_, hinv.spaced⟩
    intro older holder
    have hnewest := hinv.newest older holder
    omega
  · simp [reservations]
  · simp [windowGrants, hinv.credits]
  · intro limit hlimit
    exact hcredit limit hlimit
  · intro expiry hexpiry
    exact hinv.signalled expiry (by simpa using hexpiry)
  · refine ⟨?_, hinv.respected⟩
    intro expiry hexpiry
    obtain ⟨c, hc, hle⟩ := hinv.signalled expiry hexpiry
    exact hle.trans (hcooldown c hc)

theorem PacerInvariant.windowStart {s : PacerState} (now : ℤ) (hinv : PacerInvariant s) :
    PacerInvariant ⟨{ s.row with creditsUsed := 0, creditWindowStart := now }, now,
      .windowStarted now :: s.log⟩ where
  spaced := hinv.spaced
  newest := hinv.newest
  credits := rfl
  budget := hinv.nonneg
  nonneg := hinv.nonneg
  signalled := by simpa using hinv.signalled
  respected := hinv.respected

theorem PacerInvariant.signal {s : PacerState} (now expiry : ℤ) (hinv : PacerInvariant s) :
    PacerInvariant ⟨{ s.row with
        cooldownUntil := some (max (s.row.cooldownUntil.getD (fromTimestamp 0)) expiry) },
      now, .signalled expiry :: s.log⟩ where
  spaced := hinv.spaced
  newest := hinv.newest
  credits := hinv.credits
  budget := hinv.budget
  nonneg := hinv.nonneg
  signalled := by
    intro expiry' hmem
    rcases List.mem_cons.mp hmem with hsame | hold
    · obtain rfl : expiry' = expiry := by simpa using hsame
      exact ⟨_, rfl, le_max_right _ _⟩
    · obtain ⟨c, hc, hle⟩ := hinv.signalled expiry' hold
      exact ⟨_, rfl, by simp [Option.mem_def.mp hc, hle]⟩
  respected := hinv.respected

theorem PacerInvariant.preserved {s t : PacerState} {statement : PacerStatement}
    (hinv : PacerInvariant s) (h : step s statement = some t) : PacerInvariant t := by
  rcases step_cases h with ⟨now, row, -, hreserve, rfl⟩ | ⟨now, rfl⟩ | ⟨now, expiry, rfl⟩ |
    ⟨now, rfl⟩
  · exact hinv.grant hreserve
  · exact hinv.windowStart now
  · exact hinv.signal now expiry
  · exact ⟨hinv.spaced, hinv.newest, hinv.credits, hinv.budget, hinv.nonneg, hinv.signalled,
      hinv.respected⟩

theorem PacerInvariant.of_run {s t : PacerState} {statements : List PacerStatement}
    (hseed : Seeded s) (hrun : exec step s statements = some t) : PacerInvariant t :=
  exec_invariant (fun _ _ _ hinv h => hinv.preserved h) hseed.invariant hrun

/-- The gap and the limit of a row are fixed; its cooldown only moves forward. -/
structure RowAdvances (earlier later : PacerRow) : Prop where
  minGapMs : later.minGapMs = earlier.minGapMs
  creditLimit : later.creditLimit = earlier.creditLimit
  cooldown : cooldownLe earlier.cooldownUntil later.cooldownUntil

theorem cooldownLe_refl (c : Option ℤ) : cooldownLe c c :=
  fun expiry h => ⟨expiry, h, le_rfl⟩

theorem cooldownLe_trans {a b c : Option ℤ} (hab : cooldownLe a b) (hbc : cooldownLe b c) :
    cooldownLe a c := by
  intro expiry h
  obtain ⟨expiry', h', hle⟩ := hab expiry h
  obtain ⟨expiry'', h'', hle'⟩ := hbc expiry' h'
  exact ⟨expiry'', h'', hle.trans hle'⟩

theorem RowAdvances.refl (row : PacerRow) : RowAdvances row row :=
  ⟨rfl, rfl, cooldownLe_refl _⟩

theorem RowAdvances.trans {a b c : PacerRow} (hab : RowAdvances a b) (hbc : RowAdvances b c) :
    RowAdvances a c :=
  ⟨hbc.minGapMs.trans hab.minGapMs, hbc.creditLimit.trans hab.creditLimit,
    cooldownLe_trans hab.cooldown hbc.cooldown⟩

theorem RowAdvances.of_step {s t : PacerState} {statement : PacerStatement}
    (h : step s statement = some t) : RowAdvances s.row t.row := by
  rcases step_cases h with ⟨now, row, -, hreserve, rfl⟩ | ⟨now, rfl⟩ | ⟨now, expiry, rfl⟩ |
    ⟨now, rfl⟩
  · obtain ⟨-, rfl⟩ := reserveSlot_eq_some hreserve
    exact ⟨rfl, rfl, cooldownLe_refl _⟩
  · exact ⟨rfl, rfl, cooldownLe_refl _⟩
  · refine ⟨rfl, rfl, ?_⟩
    intro old hold
    exact ⟨_, rfl, by simp [Option.mem_def.mp hold]⟩
  · exact ⟨rfl, rfl, cooldownLe_refl _⟩

theorem RowAdvances.of_run {s t : PacerState} {statements : List PacerStatement}
    (hrun : exec step s statements = some t) : RowAdvances s.row t.row :=
  exec_relates (I := fun _ => True) (R := fun s t => RowAdvances s.row t.row)
    (fun s => .refl s.row) (fun _ _ _ => .trans) (fun _ _ _ _ _ => trivial)
    (fun _ _ _ _ h => .of_step h) trivial hrun

/-- The diagnostic classification and the pure decision name the same gate. -/
theorem classifyBlocked_agrees (provider : String) (row : PacerRow) (now next : ℤ) :
    let columns := (row.cooldownUntil, row.creditLimit, row.creditsUsed)
    let decision := pacerDecision row.cooldownUntil row.creditLimit row.creditsUsed next now
    (∀ expiry, classifyBlocked provider (some columns) now = .cooldown provider expiry ↔
        decision = .cooldown expiry) ∧
      (classifyBlocked provider (some columns) now = .creditExhausted provider ↔
        decision = .creditExhausted) ∧
      (classifyBlocked provider (some columns) now = .contended provider ↔
        decision = .allow next) := by
  intro columns decision
  have hclass : classifyBlocked provider (some columns) now = classification provider decision :=
    classifyBlocked_eq_classification provider row now next
  have hallow : ∀ next', decision = .allow next' → next' = next := by
    intro next' h
    unfold decision pacerDecision at h
    grind
  rw [hclass]
  cases hd : decision with
  | allow next' => simp [classification, hallow next' hd]
  | cooldown expiry => simp [classification]
  | creditExhausted => simp [classification]

/-- Safety of one provider's row over any sequence of statements by any number
of replicas. -/
theorem pacer_safety {s t : PacerState} {statements : List PacerStatement} (hseed : Seeded s)
    (hrun : exec step s statements = some t) :
    ((reservations t.log).IsChain fun newer older =>
        older + milliseconds s.row.minGapMs ≤ newer) ∧
      (CooldownsRespected t.log ∧
        ∀ now, (reserveSlot t.row now).isSome → ∀ expiry ∈ t.row.cooldownUntil, expiry ≤ now) ∧
      (∀ more u, exec step t more = some u →
        cooldownLe t.row.cooldownUntil u.row.cooldownUntil) ∧
      (t.row.creditsUsed = windowGrants t.log ∧
        ∀ limit ∈ s.row.creditLimit, t.row.creditsUsed ≤ limit) ∧
      (∀ provider (row : PacerRow) now next,
        let columns := (row.cooldownUntil, row.creditLimit, row.creditsUsed)
        let decision := pacerDecision row.cooldownUntil row.creditLimit row.creditsUsed next now
        (∀ expiry, classifyBlocked provider (some columns) now = .cooldown provider expiry ↔
            decision = .cooldown expiry) ∧
          (classifyBlocked provider (some columns) now = .creditExhausted provider ↔
            decision = .creditExhausted) ∧
          (classifyBlocked provider (some columns) now = .contended provider ↔
            decision = .allow next)) := by
  have hinv := PacerInvariant.of_run hseed hrun
  have hrow := RowAdvances.of_run hrun
  refine ⟨?_, ⟨hinv.respected, ?_⟩, ?_, ⟨hinv.credits, ?_⟩, classifyBlocked_agrees⟩
  · rw [← hrow.minGapMs]
    exact hinv.spaced
  · intro now hgranted
    obtain ⟨row, hrow⟩ := Option.isSome_iff_exists.mp hgranted
    exact (reserveSlot_eq_some hrow).1.1
  · intro more u hmore
    exact (RowAdvances.of_run hmore).cooldown
  · rw [← hrow.creditLimit]
    exact hinv.budget

/-- The seeded row of `coingecko`, its window opened at the epoch. -/
def coingeckoSeed : PacerState :=
  ⟨⟨0, 2000, none, 0, 0, some 10000⟩, 0, []⟩

theorem coingeckoSeed_seeded : Seeded coingeckoSeed :=
  ⟨rfl, by decide, rfl⟩

/-- Two grants with a refusal during the cooldown between them. -/
def coingeckoRun : List PacerStatement :=
  [.reserve 5, .signal 6 6000 1, .reserve 7, .reset 8, .reserve 2000000]

def coingeckoAfter : PacerState :=
  ⟨⟨4000000005, 2000, some 1006000, 0, 2, some 10000⟩, 2000000,
    [.granted 2000000 4000000005, .signalled 1006000, .granted 5 2000000005]⟩

theorem pacer_safety_coingecko :
    exec step coingeckoSeed coingeckoRun = some coingeckoAfter ∧
      coingeckoAfter.row.creditsUsed = windowGrants coingeckoAfter.log :=
  have hrun : exec step coingeckoSeed coingeckoRun = some coingeckoAfter := by decide
  ⟨hrun, (pacer_safety coingeckoSeed_seeded hrun).2.2.2.1.1⟩

end CryptoCollector.Pacer

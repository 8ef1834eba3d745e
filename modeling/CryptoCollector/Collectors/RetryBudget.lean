import CryptoCollector.Collectors.LeaseFencing

/-!
# The retry budget

`attempts` is raised by the claim and lowered by a non-failure release. Counted
against a row's events it is the number of transient failures and of superseded
claims, and one more while a claim is open or once the row ended by completion
or by a permanent failure.
-/

namespace CryptoCollector.Collectors
open Foundations

/-- How many claims were followed by a claim with no outcome between them. -/
def supersededClaims : List RowEvent → ℕ
  | [] => 0
  | event :: log =>
    supersededClaims log + if event = .claim ∧ log.head? = some .claim then 1 else 0

/-- The last claim has no outcome yet. -/
def claimOpen (log : List RowEvent) : Prop := log.head? = some .claim

/-- The last claim ended the row by completion or a permanent failure. -/
def endedForGood (log : List RowEvent) : Prop :=
  log.head? = some .completion ∨ log.head? = some .permanentFailure

instance (log : List RowEvent) : Decidable (claimOpen log) := inferInstanceAs (Decidable (_ = _))

instance (log : List RowEvent) : Decidable (endedForGood log) :=
  inferInstanceAs (Decidable (_ ∨ _))

/-- What a row's events charge to its budget. -/
def budgetSpent (log : List RowEvent) : ℤ :=
  log.count .transientFailure + supersededClaims log +
    if claimOpen log ∨ endedForGood log then 1 else 0

theorem budgetSpent_nil : budgetSpent [] = 0 := by decide

theorem budgetSpent_claim {log : List RowEvent} (h : ¬endedForGood log) :
    budgetSpent (.claim :: log) = budgetSpent log + 1 := by
  by_cases hopen : claimOpen log
  · have hhead : log.head? = some .claim := hopen
    simp [budgetSpent, supersededClaims, claimOpen, hhead]
    omega
  · have hhead : log.head? ≠ some .claim := hopen
    simp [budgetSpent, supersededClaims, h, hhead, claimOpen]

/-- A non-failure release gives back what the open claim charged. -/
theorem budgetSpent_release {log : List RowEvent} (h : claimOpen log) :
    budgetSpent (.nonFailureRelease :: log) = budgetSpent log - 1 := by
  simp [budgetSpent, supersededClaims, h]
  simp [claimOpen, endedForGood]

theorem budgetSpent_outcome {log : List RowEvent} (h : claimOpen log) {event : RowEvent}
    (hclaim : event ≠ .claim) (hrelease : event ≠ .nonFailureRelease) :
    budgetSpent (event :: log) = budgetSpent log := by
  cases event with
  | claim => exact absurd rfl hclaim
  | nonFailureRelease => exact absurd rfl hrelease
  | transientFailure =>
    simp [budgetSpent, supersededClaims, h]
    simp [claimOpen, endedForGood]
    omega
  | completion | permanentFailure =>
    simp [budgetSpent, supersededClaims, h]
    simp [endedForGood]

theorem one_le_budgetSpent {log : List RowEvent} (h : claimOpen log) : 1 ≤ budgetSpent log := by
  simp [budgetSpent, h]
  omega

variable {W P : Type*}

/-- A row agrees with the events on record for it. -/
structure Accounted (log : List RowEvent) (row : LeaseRow W P) : Prop where
  attempts : row.attempts = budgetSpent log
  claimed : row.status = .claimed ↔ claimOpen log
  notRunning : row.status ≠ .running
  pending : row.status = .pending → ¬endedForGood log

theorem Accounted.new (id enqueuedAt : ℤ) (payload : P) :
    Accounted [] (newRow id enqueuedAt payload : LeaseRow W P) where
  attempts := budgetSpent_nil.symm
  claimed := by simp [newRow, claimOpen]
  notRunning := by simp [newRow]
  pending := by simp [endedForGood]

theorem Accounted.claim {log : List RowEvent} {row : LeaseRow W P} (h : Accounted log row)
    {now : ℤ} (hclaimable : claimable now row) (self : W) (leaseSecs : ℤ) :
    Accounted (.claim :: log) (claimRow self now leaseSecs row) where
  attempts := by
    have hended : ¬endedForGood log := by
      rcases hclaimable with hpending | ⟨hclaimed | hrunning, -⟩
      · exact h.pending hpending
      · have hopen : log.head? = some .claim := h.claimed.mp hclaimed
        simp [endedForGood, hopen]
      · exact absurd hrunning h.notRunning
    rw [budgetSpent_claim hended]
    simp [claimRow, h.attempts]
  claimed := by simp [claimRow, claimOpen]
  notRunning := by simp [claimRow]
  pending := by simp [claimRow]

theorem Accounted.write {T : LeaseTable W P} {op : LeaseWrite} {f : LeaseRow W P → LeaseRow W P}
    (hf : T.effect op = some f) {log : List RowEvent} {row : LeaseRow W P}
    (h : Accounted log row) (hclaimed : row.status = .claimed) :
    Accounted (op.event.toList ++ log) (f row) := by
  have hopen := h.claimed.mp hclaimed
  have hhead : log.head? = some .claim := hopen
  cases op with
  | heartbeat now leaseSecs | advanceCursor cursor =>
    have hframe := LeaseTable.effect_of_event_none hf rfl row
    exact ⟨hframe.2.trans h.attempts, by rw [hframe.1]; exact h.claimed,
      by rw [hframe.1]; exact h.notRunning, by rw [hframe.1]; exact h.pending⟩
  | complete =>
    cases hf
    have hstatus := T.complete_status row
    refine ⟨?_, ?_, ?_, ?_⟩
    · rw [(T.complete_frame row).2.1, h.attempts]
      exact (budgetSpent_outcome hopen (by simp) (by simp)).symm
    · simp [hstatus, LeaseWrite.event, claimOpen]
    · simp [hstatus]
    · simp [hstatus]
  | release =>
    cases hf
    refine ⟨?_, ?_, ?_, ?_⟩
    · have hspent := one_le_budgetSpent hopen
      have hrelease := budgetSpent_release hopen
      simp only [LeaseWrite.event, Option.toList_some, List.singleton_append, releaseRow,
        h.attempts, hrelease]
      omega
    · simp [releaseRow, LeaseWrite.event, claimOpen]
    · simp [releaseRow]
    · simp [LeaseWrite.event, endedForGood]
  | failOrRetry maxAttempts err =>
    cases hf
    refine ⟨?_, ?_, ?_, ?_⟩
    · simp only [failOrRetryRow, h.attempts]
      exact (budgetSpent_outcome hopen (by simp) (by simp)).symm
    · simp only [failOrRetryRow, LeaseWrite.event, claimOpen]
      split_ifs <;> simp
    · simp only [failOrRetryRow]
      split_ifs <;> simp
    · simp [LeaseWrite.event, endedForGood]
  | failPermanent err =>
    cases hf
    refine ⟨?_, ?_, ?_, ?_⟩
    · simp only [failPermanentRow, h.attempts]
      exact (budgetSpent_outcome hopen (by simp) (by simp)).symm
    · simp [failPermanentRow, LeaseWrite.event, claimOpen]
    · simp [failPermanentRow]
    · simp [failPermanentRow]

/-- Every row of the table is accounted for; ids not in use have no events. -/
structure BudgetInvariant (s : World W P) : Prop where
  rows : ∀ row ∈ s.table, Accounted (s.history row.id) row
  unused : ∀ id, (∀ row ∈ s.table, row.id ≠ id) → s.history id = []

theorem BudgetInvariant.empty : BudgetInvariant (World.empty : World W P) where
  rows := by simp [World.empty]
  unused := by simp [World.empty]

theorem BudgetInvariant.insert {s : World W P} (hinv : BudgetInvariant s) {id : ℤ}
    (enqueuedAt : ℤ) (payload : P) (hfresh : ∀ row ∈ s.table, row.id ≠ id) :
    BudgetInvariant { s with table := newRow id enqueuedAt payload :: s.table } where
  rows := by
    intro row hrow
    rcases List.mem_cons.mp hrow with rfl | hold
    · have hunused : s.history id = [] := hinv.unused id hfresh
      simpa [newRow, hunused] using Accounted.new (W := W) id enqueuedAt payload
    · exact hinv.rows row hold
  unused := by
    intro id' hid'
    exact hinv.unused id' fun row hrow => hid' row (List.mem_cons_of_mem _ hrow)

variable [DecidableEq W]

theorem BudgetInvariant.claim {s : World W P} (hlease : LeaseInvariant s)
    (hinv : BudgetInvariant s) {row : LeaseRow W P} {now : ℤ} (hrow : row ∈ s.table)
    (hclaimable : claimable now row) (self : W) (leaseSecs attemptsBefore : ℤ) :
    BudgetInvariant (claimStep s self row.id now leaseSecs attemptsBefore) where
  rows := by
    intro row' hrow'
    rcases mem_claimStep.mp hrow' with ⟨old, hold, hid, rfl⟩ | ⟨hold, hid⟩
    · obtain rfl := hlease.keyed.eq_of_mem hold hrow hid
      simpa [claimStep, claimRow] using (hinv.rows old hold).claim hclaimable self leaseSecs
    · simpa [claimStep, Function.update_of_ne hid] using hinv.rows row' hold
  unused := by
    intro id hnone
    have hbefore := key_ne_of_kept (fun _ => exists_row_claimStep) hnone
    have hne : id ≠ row.id := (hbefore row hrow).symm
    simpa [claimStep, Function.update_of_ne hne] using hinv.unused id hbefore

theorem BudgetInvariant.write {T : LeaseTable W P} {s : World W P} (hlease : LeaseInvariant s)
    (hinv : BudgetInvariant s) {self : W} {c : OpenClaim} {op : LeaseWrite}
    {f : LeaseRow W P → LeaseRow W P} (hc : s.holding self = some c)
    (hf : T.effect op = some f) : BudgetInvariant (writeStep s self c op.event f) where
  rows := by
    intro row' hrow'
    rw [history_writeStep]
    rcases mem_writeStep.mp hrow' with ⟨old, hold, howned, rfl⟩ | ⟨hold, hnot⟩
    · rw [if_pos ⟨old, hold, howned⟩, LeaseTable.effect_id hf old, howned.1]
      have hclaimed := (hlease.held self c hc old hold howned).1
      simpa [howned.1] using (hinv.rows old hold).write hf hclaimed
    · split_ifs with hmatch
      · have hne : row'.id ≠ c.id := by
          intro hid
          obtain ⟨owned, hmem, howned⟩ := hmatch
          obtain rfl := hlease.keyed.eq_of_mem hmem hold (howned.1.trans hid.symm)
          exact hnot howned
        simpa [Function.update_of_ne hne] using hinv.rows row' hold
      · exact hinv.rows row' hold
  unused := by
    intro id hnone
    have hbefore := key_ne_of_kept (fun _ => exists_row_writeStep hf) hnone
    rw [history_writeStep]
    split_ifs with hmatch
    · obtain ⟨owned, hmem, howned⟩ := hmatch
      have hne : id ≠ c.id := fun hid => hbefore owned hmem (howned.1.trans hid.symm)
      simpa [Function.update_of_ne hne] using hinv.unused id hbefore
    · exact hinv.unused id hbefore

theorem BudgetInvariant.preserved {T : LeaseTable W P} {s t : World W P} {a : LeaseAction W P}
    (hlease : LeaseInvariant s) (hinv : BudgetInvariant s) (h : leaseStep T s a = some t) :
    BudgetInvariant t := by
  cases a with
  | insert id enqueuedAt payload =>
    obtain ⟨hfresh, rfl⟩ := leaseStep_insert h
    exact hinv.insert enqueuedAt payload hfresh
  | claim self id now leaseSecs locked =>
    obtain ⟨⟨other, hother, hotherId, hclaimable, -⟩, -, row, hrow, rfl, rfl⟩ := leaseStep_claim h
    obtain rfl := hlease.keyed.eq_of_mem hother hrow hotherId
    exact hinv.claim hlease hother hclaimable self leaseSecs other.attempts
  | write self op =>
    obtain ⟨c, f, hc, hf, rfl⟩ := leaseStep_write h
    exact hinv.write hlease hc hf
  | abandon self =>
    obtain rfl := leaseStep_abandon h
    exact ⟨hinv.rows, hinv.unused⟩

theorem BudgetInvariant.of_run {T : LeaseTable W P} {s : World W P} {as : List (LeaseAction W P)}
    (hrun : exec (leaseStep T) World.empty as = some s) :
    LeaseInvariant s ∧ BudgetInvariant s :=
  exec_invariant (I := fun s => LeaseInvariant s ∧ BudgetInvariant s)
    (fun _ _ _ hinv h => ⟨hinv.1.preserved h, hinv.2.preserved hinv.1 h⟩)
    ⟨LeaseInvariant.empty, BudgetInvariant.empty⟩ hrun

/-- The retry budget in one state: the counter, and what each outcome a current
owner may write does to it. -/
structure RetryBudget (T : LeaseTable W P) (s : World W P) : Prop where
  attempts : ∀ row ∈ s.table, row.attempts = budgetSpent (s.history row.id)
  release : ∀ self c t, s.holding self = some c → leaseStep T s (.write self .release) = some t →
    ∀ row ∈ s.table, ownedBy self c.id row →
      ∃ row' ∈ t.table, row'.id = row.id ∧ row'.status = .pending ∧
        row'.attempts = c.attemptsBefore ∧ row'.attempts = row.attempts - 1
  transient : ∀ self c maxAttempts err t, s.holding self = some c →
    leaseStep T s (.write self (.failOrRetry maxAttempts err)) = some t →
    ∀ row ∈ s.table, ownedBy self c.id row →
      ∃ row' ∈ t.table, row'.id = row.id ∧ row'.attempts = c.attemptsBefore + 1 ∧
        (row'.status = .failed ↔ row'.attempts ≥ maxAttempts) ∧
        (row'.status = .pending ↔ row'.attempts < maxAttempts)
  permanent : ∀ self c err t, s.holding self = some c →
    leaseStep T s (.write self (.failPermanent err)) = some t →
    ∀ row ∈ s.table, ownedBy self c.id row →
      ∃ row' ∈ t.table, row'.id = row.id ∧ row'.status = .failed

theorem write_image {T : LeaseTable W P} {s t : World W P} {self : W} {c : OpenClaim}
    {op : LeaseWrite} {f : LeaseRow W P → LeaseRow W P} (hc : s.holding self = some c)
    (hf : T.effect op = some f) (h : leaseStep T s (.write self op) = some t)
    {row : LeaseRow W P} (hrow : row ∈ s.table) (howned : ownedBy self c.id row) :
    f row ∈ t.table := by
  obtain rfl : writeStep s self c op.event f = t := by simpa [leaseStep, hc, hf] using h
  exact mem_writeStep.mpr (Or.inl ⟨row, hrow, howned, rfl⟩)

theorem BudgetInvariant.retryBudget {T : LeaseTable W P} {s : World W P}
    (hlease : LeaseInvariant s) (hinv : BudgetInvariant s) : RetryBudget T s where
  attempts row hrow := (hinv.rows row hrow).attempts
  release := by
    intro self c t hc h row hrow howned
    obtain ⟨hclaimed, -, hattempts⟩ := hlease.held self c hc row hrow howned
    have hspent := one_le_budgetSpent ((hinv.rows row hrow).claimed.mp hclaimed)
    rw [← (hinv.rows row hrow).attempts] at hspent
    refine ⟨releaseRow row, write_image hc rfl h hrow howned, rfl, rfl, ?_, ?_⟩
    · simp only [releaseRow]
      omega
    · simp only [releaseRow]
      omega
  transient := by
    intro self c maxAttempts err t hc h row hrow howned
    obtain ⟨-, -, hattempts⟩ := hlease.held self c hc row hrow howned
    refine ⟨failOrRetryRow maxAttempts err row, write_image hc rfl h hrow howned, rfl, hattempts,
      ?_, ?_⟩
    · simp only [failOrRetryRow]
      split_ifs <;> simp <;> omega
    · simp only [failOrRetryRow]
      split_ifs <;> simp <;> omega
  permanent := by
    intro self c err t hc h row hrow howned
    exact ⟨failPermanentRow err row, write_image hc rfl h hrow howned, rfl, rfl⟩

/-- Retry-budget exactness of both queues, in every state any run of workers
reaches. -/
theorem retry_budget_exact {chunks : World W ChunkColumns} {items : World W QueueColumns}
    {chunkRun : List (LeaseAction W ChunkColumns)} {itemRun : List (LeaseAction W QueueColumns)}
    (hchunks : exec (leaseStep (backfillLease W)) World.empty chunkRun = some chunks)
    (hitems : exec (leaseStep (queueLease W)) World.empty itemRun = some items) :
    RetryBudget (backfillLease W) chunks ∧ RetryBudget (queueLease W) items := by
  have hchunkInv := BudgetInvariant.of_run hchunks
  have hitemInv := BudgetInvariant.of_run hitems
  exact ⟨hchunkInv.2.retryBudget hchunkInv.1, hitemInv.2.retryBudget hitemInv.1⟩

/-- A soft skip, a transient failure, a crash, and an open second try. -/
def crashedChunkRun : List (LeaseAction ℕ ChunkColumns) :=
  [.insert 1 0 ⟨1, "bitcoin", "candles", some "1d", some 0, some 864000000000000, none⟩,
    .claim 7 1 0 10 [], .write 7 .release, .claim 7 1 1 10 [],
    .write 7 (.failOrRetry 5 "timeout"), .claim 7 1 2 10 [], .abandon 7,
    .claim 8 1 10000000003 10 []]

theorem crashedChunkRun_enabled :
    (exec (leaseStep (backfillLease ℕ)) World.empty crashedChunkRun).isSome := by decide

/-- One transient failure, one superseded claim, one open claim. -/
example : (((exec (leaseStep (backfillLease ℕ)) World.empty crashedChunkRun).get
    crashedChunkRun_enabled).table.map fun row => row.attempts) = [3] := by decide

theorem retry_budget_exact_crashed :
    RetryBudget (backfillLease ℕ)
        ((exec (leaseStep (backfillLease ℕ)) World.empty crashedChunkRun).get
          crashedChunkRun_enabled) ∧
      RetryBudget (queueLease ℕ) World.empty :=
  retry_budget_exact (Option.some_get crashedChunkRun_enabled).symm (exec_nil _ _)

end CryptoCollector.Collectors

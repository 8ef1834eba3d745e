import CryptoCollector.Collectors.Backfill
import CryptoCollector.Foundations.Runs

/-!
# Enqueueing backfill jobs

`enqueue_backfill_job` inserts a job and then its chunk, two statements outside a
transaction; a conflict on the first ends the call. A statement may be answered,
it may fail without effect, or it may take effect while its answer is lost, by an
error on the way or a crash of the caller.
-/

namespace CryptoCollector.Collectors
open Foundations DateTime

structure JobRow where
  id : ℤ
  coinId : String
  dataset : String
  deriving DecidableEq, Repr

/-- The tables the enqueue reads and writes; ids are drawn from a sequence. -/
structure JobTables where
  trackedCoins : List String
  jobs : List JobRow
  chunks : List ChunkColumns
  nextJobId : ℤ
  deriving DecidableEq, Repr

/-- What becomes of a statement. -/
inductive StatementFate where
  | answered
  | lost
  | failed
  deriving DecidableEq, Repr

/-- The arguments of a call, and what becomes of its two statements. -/
structure EnqueueCall where
  coinId : String
  dataset : String
  interval : Option String
  rangeStart : Option ℤ
  rangeEnd : Option ℤ
  jobFate : StatementFate
  chunkFate : StatementFate
  deriving DecidableEq, Repr

def HasJob (t : JobTables) (coinId dataset : String) : Prop :=
  ∃ job ∈ t.jobs, job.coinId = coinId ∧ job.dataset = dataset

def HasChunk (t : JobTables) (coinId dataset : String) : Prop :=
  ∃ chunk ∈ t.chunks, chunk.coinId = coinId ∧ chunk.dataset = dataset

instance (t : JobTables) (coinId dataset : String) : Decidable (HasJob t coinId dataset) :=
  inferInstanceAs (Decidable (∃ job ∈ t.jobs, _))

instance (t : JobTables) (coinId dataset : String) : Decidable (HasChunk t coinId dataset) :=
  inferInstanceAs (Decidable (∃ chunk ∈ t.chunks, _))

def JobTables.withJob (t : JobTables) (coinId dataset : String) : JobTables :=
  { t with jobs := ⟨t.nextJobId, coinId, dataset⟩ :: t.jobs, nextJobId := t.nextJobId + 1 }

/-- `ENQUEUE_BACKFILL_JOB_SQL`: the tables and the id returned, if a row was
inserted; `none` when the coin is not tracked and the statement fails. -/
def insertJob (t : JobTables) (coinId dataset : String) : Option (JobTables × Option ℤ) :=
  if HasJob t coinId dataset then some (t, none)
  else if coinId ∈ t.trackedCoins then some (t.withJob coinId dataset, some t.nextJobId)
  else none

/-- `INSERT_BACKFILL_CHUNK_SQL`. -/
def insertChunk (t : JobTables) (jobId : ℤ) (c : EnqueueCall) : JobTables :=
  { t with
    chunks := newChunk jobId c.coinId c.dataset c.interval c.rangeStart c.rangeEnd :: t.chunks }

/-- `enqueue_backfill_job`; `none` when the call errs or never returns. -/
def enqueueBackfillJob (t : JobTables) (c : EnqueueCall) : JobTables × Option Bool :=
  match c.jobFate, insertJob t c.coinId c.dataset with
  | .failed, _ => (t, none)
  | .lost, none => (t, none)
  | .lost, some (inserted, _) => (inserted, none)
  | .answered, none => (t, none)
  | .answered, some (unchanged, none) => (unchanged, some false)
  | .answered, some (inserted, some jobId) =>
    match c.chunkFate with
    | .failed => (inserted, none)
    | .lost => (insertChunk inserted jobId c, none)
    | .answered => (insertChunk inserted jobId c, some true)

/-- The calls of a loop, up to the first that errs, counting the jobs enqueued and
those skipped. -/
def enqueueEach : JobTables → List EnqueueCall → ℕ → ℕ → JobTables × Option (ℕ × ℕ)
  | t, [], enqueued, skipped => (t, some (enqueued, skipped))
  | t, c :: calls, enqueued, skipped =>
    match enqueueBackfillJob t c with
    | (t, none) => (t, none)
    | (t, some true) => enqueueEach t calls (enqueued + 1) skipped
    | (t, some false) => enqueueEach t calls enqueued (skipped + 1)

def startupBackfillDataset : String := "candles"

def deepHistoryBackfillDataset : String := "candles_deep_1d"

/-- `enqueue_startup_backfills`. The coins come in any order `coins`, `none` when
the query fails, each with what becomes of its statements. -/
def enqueueStartupBackfills (t : JobTables) (lookbackDays : ℕ) (now : ℤ)
    (coins : Option (List (String × StatementFate × StatementFate))) :
    JobTables × Option (ℕ × ℕ) :=
  match coins with
  | none => (t, none)
  | some coins =>
    enqueueEach t (coins.map fun (coinId, jobFate, chunkFate) =>
      ⟨coinId, startupBackfillDataset, none, some (now - days lookbackDays), some now, jobFate,
        chunkFate⟩) 0 0

/-- One coin of the deep-history list: whether the `EXISTS` query is answered, and
what becomes of the statements after it. -/
structure DeepCoin where
  coinId : String
  asked : Bool
  jobFate : StatementFate
  chunkFate : StatementFate
  deriving DecidableEq, Repr

/-- The loop of `enqueue_deep_history_backfills`. -/
def enqueueDeepLoop (start stop : ℤ) :
    JobTables → List DeepCoin → ℕ → ℕ → JobTables × Option (ℕ × ℕ)
  | t, [], enqueued, skipped => (t, some (enqueued, skipped))
  | t, coin :: coins, enqueued, skipped =>
    if coin.asked then
      if coin.coinId ∈ t.trackedCoins then
        match enqueueBackfillJob t ⟨coin.coinId, deepHistoryBackfillDataset, some "1d",
            some start, some stop, coin.jobFate, coin.chunkFate⟩ with
        | (t, none) => (t, none)
        | (t, some true) => enqueueDeepLoop start stop t coins (enqueued + 1) skipped
        | (t, some false) => enqueueDeepLoop start stop t coins enqueued (skipped + 1)
      else
        enqueueDeepLoop start stop t coins enqueued (skipped + 1)
    else
      (t, none)

def enqueueDeepHistoryBackfills (t : JobTables) (coins : List DeepCoin) (start stop : ℤ) :
    JobTables × Option (ℕ × ℕ) :=
  enqueueDeepLoop start stop t coins 0 0

/-- A job row exists exactly where its chunk row does. -/
def Paired (t : JobTables) : Prop :=
  ∀ coinId dataset, HasJob t coinId dataset ↔ HasChunk t coinId dataset

/-- The call inserts a job, and stops before its chunk statement takes effect. -/
def StopsBetween (t : JobTables) (c : EnqueueCall) : Prop :=
  ¬HasJob t c.coinId c.dataset ∧ c.coinId ∈ t.trackedCoins ∧
    (c.jobFate = .lost ∨ c.jobFate = .answered ∧ c.chunkFate = .failed)

instance (t : JobTables) (c : EnqueueCall) : Decidable (StopsBetween t c) :=
  inferInstanceAs (Decidable (_ ∧ _))

def enqueueStep (t : JobTables) (c : EnqueueCall) : Option JobTables :=
  some (enqueueBackfillJob t c).1

section Calls

variable {t u : JobTables} {c : EnqueueCall} {coinId dataset : String}

/-- Everything a call can do to the tables. -/
theorem enqueueBackfillJob_cases (t : JobTables) (c : EnqueueCall) :
    ((enqueueBackfillJob t c).1 = t ∧ ¬StopsBetween t c) ∨
      (StopsBetween t c ∧ (enqueueBackfillJob t c).1 = t.withJob c.coinId c.dataset) ∨
      (¬HasJob t c.coinId c.dataset ∧ ¬StopsBetween t c ∧
        (enqueueBackfillJob t c).1 =
          insertChunk (t.withJob c.coinId c.dataset) t.nextJobId c) := by
  by_cases hjob : HasJob t c.coinId c.dataset
  · have hinsert : insertJob t c.coinId c.dataset = some (t, none) := if_pos hjob
    refine Or.inl ⟨?_, fun h => h.1 hjob⟩
    cases hfate : c.jobFate <;> simp [enqueueBackfillJob, hfate, hinsert]
  · by_cases htracked : c.coinId ∈ t.trackedCoins
    · have hinsert : insertJob t c.coinId c.dataset =
          some (t.withJob c.coinId c.dataset, some t.nextJobId) := by
        simp [insertJob, hjob, htracked]
      cases hfate : c.jobFate with
      | failed => exact Or.inl ⟨by simp [enqueueBackfillJob, hfate], by simp [StopsBetween, hfate]⟩
      | lost =>
        exact Or.inr (Or.inl ⟨⟨hjob, htracked, Or.inl hfate⟩,
          by simp [enqueueBackfillJob, hfate, hinsert]⟩)
      | answered =>
        cases hchunk : c.chunkFate with
        | failed =>
          exact Or.inr (Or.inl ⟨⟨hjob, htracked, Or.inr ⟨hfate, hchunk⟩⟩,
            by simp [enqueueBackfillJob, hfate, hinsert, hchunk]⟩)
        | lost | answered =>
          exact Or.inr (Or.inr ⟨hjob, by simp [StopsBetween, hfate, hchunk],
            by simp [enqueueBackfillJob, hfate, hinsert, hchunk]⟩)
    · have hinsert : insertJob t c.coinId c.dataset = none := by simp [insertJob, hjob, htracked]
      refine Or.inl ⟨?_, fun h => htracked h.2.1⟩
      cases hfate : c.jobFate <;> simp [enqueueBackfillJob, hfate, hinsert]

@[simp] theorem hasJob_withJob :
    HasJob (t.withJob c.coinId c.dataset) coinId dataset ↔
      (c.coinId = coinId ∧ c.dataset = dataset) ∨ HasJob t coinId dataset := by
  simp [HasJob, JobTables.withJob]

@[simp] theorem hasChunk_withJob {coin set : String} :
    HasChunk (t.withJob coin set) coinId dataset ↔ HasChunk t coinId dataset := Iff.rfl

@[simp] theorem hasJob_insertChunk {jobId : ℤ} :
    HasJob (insertChunk t jobId c) coinId dataset ↔ HasJob t coinId dataset := Iff.rfl

@[simp] theorem hasChunk_insertChunk {jobId : ℤ} :
    HasChunk (insertChunk t jobId c) coinId dataset ↔
      (c.coinId = coinId ∧ c.dataset = dataset) ∨ HasChunk t coinId dataset := by
  simp [HasChunk, insertChunk, newChunk]

theorem Paired.call_iff (hpaired : Paired t) :
    Paired (enqueueBackfillJob t c).1 ↔ ¬StopsBetween t c := by
  rcases enqueueBackfillJob_cases t c with ⟨hsame, hno⟩ | ⟨hstops, hjob⟩ | ⟨-, hno, hboth⟩
  · rw [hsame]
    exact iff_of_true hpaired hno
  · rw [hjob]
    refine iff_of_false ?_ (not_not_intro hstops)
    intro h
    have hchunk := (h c.coinId c.dataset).mp (hasJob_withJob.mpr (Or.inl ⟨rfl, rfl⟩))
    exact hstops.1 ((hpaired _ _).mpr (hasChunk_withJob.mp hchunk))
  · rw [hboth]
    refine iff_of_true ?_ hno
    intro coinId dataset
    simp [hpaired coinId dataset]

/-- A job without its chunk stays so: the next call for its key meets a conflict. -/
theorem torn_call (hjob : HasJob t coinId dataset) (hchunk : ¬HasChunk t coinId dataset)
    (c : EnqueueCall) :
    HasJob (enqueueBackfillJob t c).1 coinId dataset ∧
      ¬HasChunk (enqueueBackfillJob t c).1 coinId dataset := by
  rcases enqueueBackfillJob_cases t c with ⟨hsame, -⟩ | ⟨-, hnew⟩ | ⟨hfresh, -, hboth⟩
  · rw [hsame]
    exact ⟨hjob, hchunk⟩
  · rw [hnew]
    exact ⟨hasJob_withJob.mpr (Or.inr hjob), hchunk⟩
  · rw [hboth]
    refine ⟨hasJob_withJob.mpr (Or.inr hjob), ?_⟩
    rw [hasChunk_insertChunk, hasChunk_withJob]
    rintro (⟨rfl, rfl⟩ | hold)
    · exact hfresh hjob
    · exact hchunk hold

theorem torn_run {calls : List EnqueueCall} (hjob : HasJob t coinId dataset)
    (hchunk : ¬HasChunk t coinId dataset) (hrun : exec enqueueStep t calls = some u) :
    HasJob u coinId dataset ∧ ¬HasChunk u coinId dataset := by
  refine exec_invariant (I := fun t => HasJob t coinId dataset ∧ ¬HasChunk t coinId dataset)
    ?_ ⟨hjob, hchunk⟩ hrun
  intro s c t hs hstep
  cases hstep
  exact torn_call hs.1 hs.2 c

theorem Paired.run_iff {calls : List EnqueueCall} (hpaired : Paired t)
    (hrun : exec enqueueStep t calls = some u) :
    Paired u ↔ StepsMeet enqueueStep (fun t c => ¬StopsBetween t c) t calls := by
  induction calls generalizing t with
  | nil =>
    obtain rfl : t = u := by simpa using hrun
    exact iff_of_true hpaired trivial
  | cons c calls ih =>
    obtain ⟨v, hv, hrest⟩ := (exec_cons_eq_some enqueueStep).mp hrun
    obtain rfl : (enqueueBackfillJob t c).1 = v := by simpa [enqueueStep] using hv
    by_cases hstops : StopsBetween t c
    · refine iff_of_false ?_ fun h => h.1 hstops
      rcases enqueueBackfillJob_cases t c with ⟨-, hno⟩ | ⟨-, hnew⟩ | ⟨-, hno, -⟩
      · exact absurd hstops hno
      · rw [hnew] at hrest
        have hnone : ¬HasChunk t c.coinId c.dataset :=
          fun h => hstops.1 ((hpaired _ _).mpr h)
        have htorn := torn_run (hasJob_withJob.mpr (Or.inl ⟨rfl, rfl⟩)) hnone hrest
        exact fun h => htorn.2 ((h _ _).mp htorn.1)
      · exact absurd hstops hno
    · rw [ih (hpaired.call_iff.mpr hstops) hrest]
      constructor
      · intro h
        refine ⟨hstops, ?_⟩
        intro v hv
        cases hv
        exact h
      · intro h
        exact h.2 _ rfl

/-- They are in pairs after every call exactly when no call stopped between its
statements. -/
theorem Paired.everyReached_iff (hpaired : Paired t) (calls : List EnqueueCall) :
    EveryReached enqueueStep Paired t calls ↔
      StepsMeet enqueueStep (fun t c => ¬StopsBetween t c) t calls := by
  induction calls generalizing t with
  | nil => exact iff_of_true (everyReached_nil.mpr hpaired) trivial
  | cons c calls ih =>
    rw [everyReached_cons]
    constructor
    · rintro ⟨-, hrest⟩
      have hreached := hrest _ rfl
      have hafter : Paired (enqueueBackfillJob t c).1 := hreached [] List.nil_prefix _ rfl
      refine ⟨hpaired.call_iff.mp hafter, ?_⟩
      intro v hv
      cases hv
      exact (ih hafter).mp hreached
    · rintro ⟨hno, hrest⟩
      refine ⟨hpaired, ?_⟩
      intro v hv
      cases hv
      exact (ih (hpaired.call_iff.mpr hno)).mpr (hrest _ rfl)

theorem Paired.retry (hpaired : Paired t) (htracked : c.coinId ∈ t.trackedCoins)
    (hjob : c.jobFate = .answered) (hchunk : c.chunkFate = .answered) :
    HasJob (enqueueBackfillJob t c).1 c.coinId c.dataset ∧
      HasChunk (enqueueBackfillJob t c).1 c.coinId c.dataset := by
  have hno : ¬StopsBetween t c := by simp [StopsBetween, hjob, hchunk]
  have hafter : Paired (enqueueBackfillJob t c).1 := hpaired.call_iff.mpr hno
  have hexists : HasJob (enqueueBackfillJob t c).1 c.coinId c.dataset := by
    by_cases hold : HasJob t c.coinId c.dataset
    · simp [enqueueBackfillJob, hjob, insertJob, hold]
    · simp [enqueueBackfillJob, hjob, hchunk, insertJob, hold, htracked]
  exact ⟨hexists, (hafter _ _).mp hexists⟩

end Calls

section Loops

theorem exec_enqueue_cons (t : JobTables) (c : EnqueueCall) (calls : List EnqueueCall) :
    exec enqueueStep t (c :: calls) = exec enqueueStep (enqueueBackfillJob t c).1 calls := rfl

theorem enqueueEach_calls (t : JobTables) (calls : List EnqueueCall) (enqueued skipped : ℕ) :
    ∃ made, made <+: calls ∧
      exec enqueueStep t made = some (enqueueEach t calls enqueued skipped).1 := by
  induction calls generalizing t enqueued skipped with
  | nil => exact ⟨[], List.prefix_rfl, rfl⟩
  | cons c calls ih =>
    rcases hcall : enqueueBackfillJob t c with ⟨u, result⟩
    match result with
    | none => exact ⟨[c], by simp, by simp [exec_enqueue_cons, enqueueEach, hcall]⟩
    | some true =>
      obtain ⟨made, hprefix, hrun⟩ := ih u (enqueued + 1) skipped
      exact ⟨c :: made, List.cons_prefix_cons.mpr ⟨rfl, hprefix⟩,
        by simp [exec_enqueue_cons, enqueueEach, hcall, hrun]⟩
    | some false =>
      obtain ⟨made, hprefix, hrun⟩ := ih u enqueued (skipped + 1)
      exact ⟨c :: made, List.cons_prefix_cons.mpr ⟨rfl, hprefix⟩,
        by simp [exec_enqueue_cons, enqueueEach, hcall, hrun]⟩

theorem enqueueStartupBackfills_calls (t : JobTables) (lookbackDays : ℕ) (now : ℤ)
    (coins : Option (List (String × StatementFate × StatementFate))) :
    ∃ made, exec enqueueStep t made =
      some (enqueueStartupBackfills t lookbackDays now coins).1 := by
  cases coins with
  | none => exact ⟨[], rfl⟩
  | some coins =>
    obtain ⟨made, -, hrun⟩ := enqueueEach_calls t _ 0 0
    exact ⟨made, hrun⟩

theorem enqueueDeepLoop_calls (start stop : ℤ) (t : JobTables) (coins : List DeepCoin)
    (enqueued skipped : ℕ) :
    ∃ made, exec enqueueStep t made =
      some (enqueueDeepLoop start stop t coins enqueued skipped).1 := by
  induction coins generalizing t enqueued skipped with
  | nil => exact ⟨[], rfl⟩
  | cons coin coins ih =>
    unfold enqueueDeepLoop
    split_ifs
    · set c : EnqueueCall := ⟨coin.coinId, deepHistoryBackfillDataset, some "1d", some start,
        some stop, coin.jobFate, coin.chunkFate⟩ with hc
      rcases hcall : enqueueBackfillJob t c with ⟨u, result⟩
      match result with
      | none => exact ⟨[c], by simp [exec_enqueue_cons, hcall]⟩
      | some true =>
        obtain ⟨made, hrun⟩ := ih u (enqueued + 1) skipped
        exact ⟨c :: made, by simp [exec_enqueue_cons, hcall, hrun]⟩
      | some false =>
        obtain ⟨made, hrun⟩ := ih u enqueued (skipped + 1)
        exact ⟨c :: made, by simp [exec_enqueue_cons, hcall, hrun]⟩
    · exact ih t enqueued (skipped + 1)
    · exact ⟨[], rfl⟩

end Loops

/-- Enqueueing keeps jobs and chunks in pairs exactly over the runs whose calls
never stop between the two statements, and no later call repairs one that does. The
startup hooks only make such calls. -/
theorem enqueueBackfillJob_atomic_iff {t : JobTables} (hpaired : Paired t) :
    (∀ calls, EveryReached enqueueStep Paired t calls ↔
        StepsMeet enqueueStep (fun t c => ¬StopsBetween t c) t calls) ∧
      (∀ calls u, exec enqueueStep t calls = some u →
        (Paired u ↔ StepsMeet enqueueStep (fun t c => ¬StopsBetween t c) t calls)) ∧
      (∀ lookbackDays now coins, ∃ made, exec enqueueStep t made =
        some (enqueueStartupBackfills t lookbackDays now coins).1) ∧
      (∀ coins start stop, ∃ made, exec enqueueStep t made =
        some (enqueueDeepHistoryBackfills t coins start stop).1) ∧
      ∀ c : EnqueueCall, c.coinId ∈ t.trackedCoins → c.jobFate = .answered →
        c.chunkFate = .answered →
        HasJob (enqueueBackfillJob t c).1 c.coinId c.dataset ∧
          HasChunk (enqueueBackfillJob t c).1 c.coinId c.dataset :=
  ⟨hpaired.everyReached_iff, fun _ _ => hpaired.run_iff, enqueueStartupBackfills_calls t,
    fun coins start stop => enqueueDeepLoop_calls start stop t coins 0 0, fun _ => hpaired.retry⟩

/-- One tracked coin, nothing enqueued. -/
def bitcoinTables : JobTables := ⟨["bitcoin"], [], [], 1⟩

def bitcoinCall (chunkFate : StatementFate) : EnqueueCall :=
  ⟨"bitcoin", startupBackfillDataset, none, some 0, some 1000, .answered, chunkFate⟩

theorem bitcoinTables_paired : Paired bitcoinTables := by
  intro coinId dataset
  simp [HasJob, HasChunk, bitcoinTables]

theorem enqueueBackfillJob_atomic_bitcoin :
    EveryReached enqueueStep Paired bitcoinTables [bitcoinCall .answered, bitcoinCall .failed] :=
  ((enqueueBackfillJob_atomic_iff bitcoinTables_paired).1 _).mpr (by decide)

/-- The chunk statement fails; the retry is answered and finds the job there. -/
theorem enqueueBackfillJob_half_written :
    Paired bitcoinTables ∧
      (enqueueBackfillJob bitcoinTables (bitcoinCall .failed)).2 = none ∧
      ∃ t u, exec enqueueStep bitcoinTables [bitcoinCall .failed] = some t ∧
        enqueueBackfillJob t (bitcoinCall .answered) = (u, some false) ∧
        HasJob u "bitcoin" startupBackfillDataset ∧ ¬HasChunk u "bitcoin" startupBackfillDataset ∧
        ¬Paired t :=
  have hjob : HasJob (bitcoinTables.withJob "bitcoin" startupBackfillDataset) "bitcoin"
      startupBackfillDataset := by decide
  have hchunk : ¬HasChunk (bitcoinTables.withJob "bitcoin" startupBackfillDataset) "bitcoin"
      startupBackfillDataset := by decide
  ⟨bitcoinTables_paired, rfl, _, _, rfl, rfl, hjob, hchunk, fun h => hchunk ((h _ _).mp hjob)⟩

end CryptoCollector.Collectors

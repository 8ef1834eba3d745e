import CryptoCollector.Collectors.RollupConvergence
import CryptoCollector.Db.BatchedUpserts

/-!
# What the rollup leaves alone

Native providers and the rollup write one table under one key. Every write of the
rollup gives way to a native row: its upserts are guarded, its deletions pick rollup
rows only. So no pass, and no statement of a pass that read the table some time ago,
touches a native row.
-/

namespace CryptoCollector.Collectors
open Models Foundations Db Api

/-- The job of one target interval, where a source interval is selected for it. -/
def rollupJob (coverage : List IntervalCoverage) (coinId vsCurrency : String) (now : ℤ)
    (target : { target // target ∈ targetIntervals }) : Option RollupJob :=
  match h : selectSourceInterval coverage target.1.2 none now with
  | none => none
  | some sourceInterval =>
    match hsecs : intervalSecs sourceInterval with
    | none => none
    | some sourceSecs =>
      some ⟨coinId, vsCurrency, target.1.1, target.1.2, sourceInterval, sourceSecs, target.2, hsecs,
        by
          obtain ⟨secs, hsame, -, hdiv⟩ := selectSourceInterval_divides h
          cases hsecs.symm.trans hsame
          exact hdiv⟩

def runRollup (coinId vsCurrency : String) (now : ℤ) (t : CandleTable) : CandleTable :=
  let coverage := (t.intervalCoverage coinId vsCurrency).map
    fun (interval, earliest, latest) => IntervalCoverage.mk interval earliest latest
  targetIntervals.attach.foldl (fun t target =>
    match rollupJob coverage coinId vsCurrency now target with
    | some job => job.incrementalRecomputeTarget now t
    | none => t) t

/-- A pass over one target. -/
inductive RollupPass where
  | forward (recomputeStart : ℤ)
  | backfill
  | repair
  | recompute
  deriving DecidableEq, Repr

def RollupPass.run (job : RollupJob) (now : ℤ) (t : CandleTable) : RollupPass → CandleTable
  | .forward recomputeStart => job.recomputeForward now recomputeStart t
  | .backfill => job.backfillTarget now t
  | .repair => job.repairHistory now t
  | .recompute => job.incrementalRecomputeTarget now t

/-- A write statement of a pass, which may have read an older table. -/
inductive RollupWrite where
  | upsert (candles : List CoinCandle)
  | delete (ts : ℤ)

inductive CandleEvent where
  | nativeUpsert (candles : List CoinCandle)
  | pass (job : RollupJob) (now : ℤ) (pass : RollupPass)
  | rollup (coinId vsCurrency : String) (now : ℤ)
  | rollupWrite (job : RollupJob) (write : RollupWrite)

/-- The events of the rollup. -/
def CandleEvent.ofRollup : CandleEvent → Prop
  | .nativeUpsert _ => False
  | _ => True

section Events

variable (tracked : String → Bool)

def RollupWrite.commit (job : RollupJob) (t : CandleTable) : RollupWrite → CandleTable
  | .upsert candles => committed t (tryBatchedUpsertCoinCandles tracked t candles .rollupGuarded)
  | .delete ts => job.deleteRollup t ts

def candleStep (t : CandleTable) : CandleEvent → CandleTable
  | .nativeUpsert candles =>
    committed t (tryBatchedUpsertCoinCandles tracked t candles .nativeOverwrite)
  | .pass job now pass => pass.run job now t
  | .rollup coinId vsCurrency now => runRollup coinId vsCurrency now t
  | .rollupWrite job write => write.commit tracked job t

def candleRun (t : CandleTable) (events : List CandleEvent) : CandleTable :=
  events.foldl (candleStep tracked) t

end Events

/-- A row of the rollup of this target. -/
def RollupJob.Owns (job : RollupJob) (c : CoinCandle) : Prop :=
  c.coinId = job.coinId ∧ c.vsCurrency = job.vsCurrency ∧ c.interval = job.targetInterval ∧
    isRollup c = true

theorem not_owns_of_native {job : RollupJob} {c : CoinCandle} (hnative : isRollup c = false) :
    ¬job.Owns c := by
  rintro ⟨-, -, -, hrollup⟩
  simp [hnative] at hrollup

def RollupJob.nativeRows (job : RollupJob) (t : CandleTable) : List CoinCandle :=
  (t.series job.coinId job.vsCurrency job.targetInterval).filter fun c => !isRollup c

theorem RollupJob.mem_targetSeries {job : RollupJob} {t : CandleTable} {c : CoinCandle} :
    c ∈ t.series job.coinId job.vsCurrency job.targetInterval ↔
      c ∈ job.nativeRows t ∨ c ∈ job.rollupRows t := by
  rw [nativeRows, rollupRows, List.mem_filter, List.mem_filter, ← and_or_left]
  cases isRollup c <;> simp

/-- Rows that the rollup of the target does not own are neither written nor removed. -/
def SparesOthers (job : RollupJob) (t t' : CandleTable) : Prop :=
  ∀ c, ¬job.Owns c → (c ∈ t'.rows ↔ c ∈ t.rows)

namespace SparesOthers

variable {job : RollupJob} {now : ℤ} {t t' t'' : CandleTable}

theorem refl (t : CandleTable) : SparesOthers job t t := fun _ _ => Iff.rfl

theorem trans (h : SparesOthers job t t') (h' : SparesOthers job t' t'') :
    SparesOthers job t t'' :=
  fun c hc => (h' c hc).trans (h c hc)

theorem foldl {β : Type*} {f : CandleTable → β → CandleTable} {xs : List β}
    (h : ∀ t, ∀ x ∈ xs, SparesOthers job t (f t x)) (t : CandleTable) :
    SparesOthers job t (xs.foldl f t) := by
  induction xs generalizing t with
  | nil => exact refl t
  | cons x xs ih =>
    have hrest := ih fun t y hy => h t y (List.mem_cons_of_mem _ hy)
    exact (h t x List.mem_cons_self).trans (hrest (f t x))

theorem upsert {x : CoinCandle} (hx : job.Owns x) (t : CandleTable) :
    SparesOthers job t (t.upsert CandleConflictPolicy.rollupGuarded.givesWay x) := by
  intro c hc
  have hne : x ≠ c := fun h => hc (h ▸ hx)
  rw [KeyedTable.mem_rows_iff, KeyedTable.mem_rows_iff, KeyedTable.lookup_upsert]
  split_ifs with hkey
  · cases hrow : t.lookup c.key with
    | none => simp [KeyedTable.overwrite, hne]
    | some old =>
      by_cases hrollup : isRollup old = true
      · -- the row that gives way is a rollup row with the key of `x`, so it is not `c`
        have hold : old ≠ c := by
          rintro rfl
          simp only [CoinCandle.key, CandleKey.mk.injEq] at hkey
          obtain ⟨hcoin, hcurrency, hinterval, -⟩ := hkey
          exact hc ⟨hcoin.trans hx.1, hcurrency.trans hx.2.1, hinterval.trans hx.2.2.1, hrollup⟩
        simp [KeyedTable.overwrite, CandleConflictPolicy.givesWay, hrollup, hne, hold]
      · simp [KeyedTable.overwrite, CandleConflictPolicy.givesWay, hrollup]
  · rfl

theorem batchedUpsertCandles {candles : List CoinCandle} (hcandles : ∀ c ∈ candles, job.Owns c)
    (t : CandleTable) :
    SparesOthers job t (Collectors.RollupJob.batchedUpsertCandles t candles) := by
  apply foldl
  intro t x hx
  obtain ⟨c, hc, rfl⟩ := List.mem_map.mp hx
  exact upsert (x := stored c) (hcandles c hc) t

theorem deleteRollup (job : RollupJob) (t : CandleTable) (ts : ℤ) :
    SparesOthers job t (job.deleteRollup t ts) := by
  intro c hc
  rw [KeyedTable.mem_rows_iff, KeyedTable.mem_rows_iff, RollupJob.deleteRollup,
    KeyedTable.lookup_erase, Option.filter_eq_some_iff]
  apply and_iff_left
  simp only [Bool.not_eq_true', decide_eq_false_iff_not]
  rintro ⟨hkey, hrollup⟩
  simp only [CoinCandle.key, CandleKey.mk.injEq] at hkey
  exact hc ⟨hkey.1, hkey.2.1, hkey.2.2.1, hrollup⟩

theorem owns_of_materialized {rows : List CoinCandle} {c : CoinCandle}
    (hrows : ∀ row ∈ rows, row ∈ job.sourceRows t)
    (hc : c ∈ job.materializeFromSource now rows) : job.Owns c := by
  have hseries : OfSeries job.coinId job.vsCurrency rows := fun row hrow =>
    job.sourceRows_ofSeries t row (hrows row hrow)
  obtain ⟨row, hrow, rfl⟩ := List.mem_map.mp hc
  obtain ⟨b, hb⟩ := (mem_aggregateCandles_iff hseries).mp hrow
  obtain ⟨g, -, -, rfl⟩ := bucketCandle_eq_some_iff.mp hb
  exact ⟨rfl, rfl, rfl, isRollup_of_label rfl⟩

theorem recomputeForward (job : RollupJob) (now recomputeStart : ℤ) (t : CandleTable) :
    SparesOthers job t (job.recomputeForward now recomputeStart t) := by
  have hdeletes : ∀ (deletes : List ℤ) (t : CandleTable),
      SparesOthers job t (deletes.foldl job.deleteRollup t) := fun _ =>
    foldl fun t ts _ => deleteRollup job t ts
  unfold RollupJob.recomputeForward reconcileWindow
  simp only
  split_ifs
  · exact hdeletes _ t
  · refine (batchedUpsertCandles (fun c hc => ?_) t).trans (hdeletes _ _)
    exact owns_of_materialized (fun _ => List.mem_of_mem_filter) hc

theorem walkChunk (job : RollupJob) (now windowStart : ℤ) (t : CandleTable) :
    SparesOthers job t (job.walkChunk now windowStart t) := by
  unfold RollupJob.walkChunk
  simp only
  split_ifs
  · exact refl t
  · refine batchedUpsertCandles (fun c hc => ?_) t
    refine owns_of_materialized (t := t) (fun row hrow => ?_) hc
    exact List.mem_of_mem_filter (mem_sortByTs.mp hrow)

theorem walkLoop (job : RollupJob) (now ceiling : ℤ) (fuel : ℕ) (windowStart : ℤ)
    (t : CandleTable) : SparesOthers job t (job.walkLoop now ceiling fuel windowStart t) := by
  induction fuel generalizing windowStart t with
  | zero => exact refl t
  | succ fuel ih =>
    unfold RollupJob.walkLoop
    split_ifs
    · exact (walkChunk job now windowStart t).trans (ih _ _)
    · exact refl t

theorem backfillTarget (job : RollupJob) (now : ℤ) (t : CandleTable) :
    SparesOthers job t (job.backfillTarget now t) := by
  unfold RollupJob.backfillTarget
  split
  · exact refl t
  · exact walkLoop job now _ _ _ t

theorem repairHistory (job : RollupJob) (now : ℤ) (t : CandleTable) :
    SparesOthers job t (job.repairHistory now t) := by
  unfold RollupJob.repairHistory
  split
  · split
    · exact walkLoop job now _ _ _ t
    · exact refl t
  · exact refl t

theorem incrementalRecomputeTarget (job : RollupJob) (now : ℤ) (t : CandleTable) :
    SparesOthers job t (job.incrementalRecomputeTarget now t) := by
  unfold RollupJob.incrementalRecomputeTarget
  split
  · exact backfillTarget job now t
  · exact (recomputeForward job now _ t).trans (repairHistory job now _)

theorem pass (job : RollupJob) (now : ℤ) (t : CandleTable) (pass : RollupPass) :
    SparesOthers job t (pass.run job now t) := by
  cases pass with
  | forward recomputeStart => exact recomputeForward job now recomputeStart t
  | backfill => exact backfillTarget job now t
  | repair => exact repairHistory job now t
  | recompute => exact incrementalRecomputeTarget job now t

section Reads

variable {c : CoinCandle} (h : SparesOthers job t t')
include h

theorem mem_nativeRows : c ∈ job.nativeRows t' ↔ c ∈ job.nativeRows t := by
  rw [RollupJob.nativeRows, RollupJob.nativeRows, List.mem_filter, List.mem_filter,
    CandleTable.mem_series, CandleTable.mem_series]
  apply and_congr_left
  intro hnative
  apply and_congr_left
  intro _
  exact h c (not_owns_of_native (by simpa using hnative))

theorem mem_sourceRows : c ∈ job.sourceRows t' ↔ c ∈ job.sourceRows t := by
  rw [RollupJob.sourceRows, RollupJob.sourceRows, CandleTable.mem_series, CandleTable.mem_series]
  apply and_congr_left
  rintro ⟨-, -, hinterval⟩
  apply h c
  rintro ⟨-, -, htarget, -⟩
  exact job.source_ne_target (hinterval.symm.trans htarget)

theorem nativeHeld_iff (k : CandleKey) :
    RollupJob.NativeHeld t' k ↔ RollupJob.NativeHeld t k := by
  apply exists_congr
  intro old
  apply and_congr_left
  intro hnative
  have hrows := h old (not_owns_of_native hnative)
  rw [KeyedTable.mem_rows_iff, KeyedTable.mem_rows_iff] at hrows
  constructor
  · intro hold
    obtain rfl : old.key = k := KeyedTable.key_eq_of_lookup hold
    exact hrows.mp hold
  · intro hold
    obtain rfl : old.key = k := KeyedTable.key_eq_of_lookup hold
    exact hrows.mpr hold

/-- The source emits after a write of the rollup what it emitted before. -/
theorem mem_materialized : c ∈ job.materializeFromSource now (job.sourceRows t') ↔
    c ∈ job.materializeFromSource now (job.sourceRows t) := by
  rw [RollupJob.mem_materialize_sourceRows, RollupJob.mem_materialize_sourceRows]
  apply exists_congr
  intro b
  rw [RollupJob.foldAt_congr fun row => h.mem_sourceRows]

end Reads
end SparesOthers

/-- Every native row stands where it stood. -/
def KeepsNative (t t' : CandleTable) : Prop :=
  ∀ c, isRollup c = false → t.lookup c.key = some c → t'.lookup c.key = some c

namespace KeepsNative

variable {t t' t'' : CandleTable}

theorem refl (t : CandleTable) : KeepsNative t t := fun _ _ h => h

theorem trans (h : KeepsNative t t') (h' : KeepsNative t' t'') : KeepsNative t t'' :=
  fun c hc hrow => h' c hc (h c hc hrow)

theorem foldl {β : Type*} {f : CandleTable → β → CandleTable}
    (h : ∀ t x, KeepsNative t (f t x)) (t : CandleTable) (xs : List β) :
    KeepsNative t (xs.foldl f t) := by
  induction xs generalizing t with
  | nil => exact refl t
  | cons x xs ih => exact (h t x).trans (ih (f t x))

theorem upsert (t : CandleTable) (x : CoinCandle) :
    KeepsNative t (t.upsert CandleConflictPolicy.rollupGuarded.givesWay x) := by
  intro c hc hrow
  rw [KeyedTable.lookup_upsert, hrow]
  simp [KeyedTable.overwrite, CandleConflictPolicy.givesWay, hc]

theorem batchedUpsertCandles (t : CandleTable) (candles : List CoinCandle) :
    KeepsNative t (Collectors.RollupJob.batchedUpsertCandles t candles) :=
  foldl upsert t (candles.map stored)

theorem deleteRollup (job : RollupJob) (t : CandleTable) (ts : ℤ) :
    KeepsNative t (job.deleteRollup t ts) := by
  intro c hc hrow
  rw [RollupJob.deleteRollup, KeyedTable.lookup_erase, hrow]
  simp [hc]

theorem of_sparesOthers {job : RollupJob} (h : SparesOthers job t t') : KeepsNative t t' := by
  intro c hc hrow
  rw [← KeyedTable.mem_rows_iff] at hrow ⊢
  exact (h c (not_owns_of_native hc)).mpr hrow

theorem runRollup (coinId vsCurrency : String) (now : ℤ) (t : CandleTable) :
    KeepsNative t (Collectors.runRollup coinId vsCurrency now t) := by
  unfold Collectors.runRollup
  apply foldl
  intro t target
  split
  · exact of_sparesOthers (SparesOthers.incrementalRecomputeTarget _ now t)
  · exact refl t

theorem rollupWrite (tracked : String → Bool) (job : RollupJob) (t : CandleTable)
    (write : RollupWrite) : KeepsNative t (write.commit tracked job t) := by
  cases write with
  | delete ts => exact deleteRollup job t ts
  | upsert candles =>
    unfold RollupWrite.commit
    simp only
    by_cases haccepted : Accepted tracked candles
    · obtain ⟨t', htry, hsame⟩ := tryBatched_of_accepted t .rollupGuarded haccepted
      rw [htry]
      intro c hc hrow
      exact (hsame c.key).trans (batchedUpsertCandles t candles c hc hrow)
    · obtain ⟨e, htry⟩ := tryBatched_of_not_accepted t .rollupGuarded haccepted
      rw [htry]
      exact refl t

/-- No event of the rollup touches a native row. -/
theorem of_rollup (tracked : String → Bool) (t : CandleTable) {event : CandleEvent}
    (h : event.ofRollup) : KeepsNative t (candleStep tracked t event) := by
  cases event with
  | nativeUpsert candles => exact h.elim
  | pass job now p => exact of_sparesOthers (SparesOthers.pass job now t p)
  | rollup coinId vsCurrency now => exact runRollup coinId vsCurrency now t
  | rollupWrite job write => exact rollupWrite tracked job t write

end KeepsNative

section Runs

variable {tracked : String → Bool} {t : CandleTable} {events : List CandleEvent}

/-- The event proposes no native candle of the key. -/
def CandleEvent.Spares (k : CandleKey) : CandleEvent → Prop
  | .nativeUpsert candles => ∀ c ∈ candles, (stored c).key ≠ k
  | _ => True

theorem lookup_candleStep {c : CoinCandle} (hc : isRollup c = false) {event : CandleEvent}
    (hspares : event.Spares c.key) (h : t.lookup c.key = some c) :
    (candleStep tracked t event).lookup c.key = some c := by
  cases event with
  | nativeUpsert candles => exact (lookup_tryBatched_off hspares).trans h
  | pass job now pass =>
    exact KeepsNative.of_sparesOthers (SparesOthers.pass job now t pass) c hc h
  | rollup coinId vsCurrency now => exact KeepsNative.runRollup coinId vsCurrency now t c hc h
  | rollupWrite job write => exact KeepsNative.rollupWrite tracked job t write c hc h

theorem lookup_candleRun {c : CoinCandle} (hc : isRollup c = false)
    (hspares : ∀ event ∈ events, event.Spares c.key) (h : t.lookup c.key = some c) :
    (candleRun tracked t events).lookup c.key = some c := by
  induction events generalizing t with
  | nil => exact h
  | cons event events ih =>
    have hfirst : (candleStep tracked t event).lookup c.key = some c :=
      lookup_candleStep hc (hspares event List.mem_cons_self) h
    exact ih (fun e he => hspares e (List.mem_cons_of_mem _ he)) hfirst

theorem candleRun_append (events' : List CandleEvent) :
    candleRun tracked t (events ++ events') =
      candleRun tracked (candleRun tracked t events) events' :=
  List.foldl_append

/-- In every run of rollup passes, lone rollup statements and native upserts, no
event of the rollup changes or deletes a native row, and a native candle that was
written stays until another native candle of its key is written. -/
theorem native_rows_survive (tracked : String → Bool) (t : CandleTable)
    (events : List CandleEvent) :
    (∀ before event after, events = before ++ event :: after → event.ofRollup →
      ∀ c ∈ (candleRun tracked t before).rows, isRollup c = false →
        c ∈ (candleStep tracked (candleRun tracked t before) event).rows) ∧
    (∀ before candles after, events = before ++ .nativeUpsert candles :: after →
      Accepted tracked candles → ∀ c ∈ candles, isRollup c = false →
        (∀ event ∈ after, event.Spares (stored c).key) →
          (candleRun tracked t events).lookup (stored c).key = some (stored c)) := by
  constructor
  · rintro before event after - hrollup c hc hnative
    rw [KeyedTable.mem_rows_iff] at hc ⊢
    exact KeepsNative.of_rollup tracked _ hrollup c hnative hc
  · rintro before candles after rfl haccepted c hc hnative hspares
    have hwritten := lookup_tryBatched_native (t := candleRun tracked t before) haccepted hc
    rw [candleRun_append]
    change (candleRun tracked (candleStep tracked (candleRun tracked t before)
      (.nativeUpsert candles)) after).lookup (stored c).key = some (stored c)
    exact lookup_candleRun (c := stored c) hnative hspares hwritten

/-- A native daily candle written beside an hourly one of its day, and a recompute. -/
theorem native_rows_survive_recompute :
    (candleRun (fun _ => true) KeyedTable.empty
      [.nativeUpsert [⟨"bitcoin", "usd", "1d", 0, 5, 9, 4, 7, none, "kraken"⟩,
        ⟨"bitcoin", "usd", "1h", 0, 1, 2, 1, 2, none, "binance"⟩],
      .pass ⟨"bitcoin", "usd", "1d", 86400, "1h", 3600, by decide, rfl, by decide⟩ 7200000000000
        .recompute]).lookup ⟨"bitcoin", "usd", "1d", 0⟩ =
      some ⟨"bitcoin", "usd", "1d", 0, 5, 9, 4, 7, none, "kraken"⟩ :=
  (native_rows_survive (fun _ => true) KeyedTable.empty _).2 [] _ _ rfl (by decide)
    ⟨"bitcoin", "usd", "1d", 0, 5, 9, 4, 7, none, "kraken"⟩ List.mem_cons_self (by decide)
    fun event he => by
      rw [List.mem_singleton.mp he]
      trivial

end Runs
end CryptoCollector.Collectors

import CryptoCollector.Api.CandlesAgg
import CryptoCollector.Db.Upserts

/-!
# The rollup materializer

Stored `1d` and `1w` candles are folded from a shorter interval. A run recomputes
from the newest stored bucket on, and then repairs the history before the oldest
one in chunks of weeks. The instants bound into the queries are read from the
table or whole seconds, so they are stored as they are.
-/

namespace CryptoCollector.Collectors
open Models Foundations Db Api DateTime

/-- The targets that are materialized, with their durations. -/
def targetIntervals : List (String × ℤ) := [("1d", 86400), ("1w", 604800)]

def backfillChunkWeeks : ℤ := 4

def weekSecs : ℤ := 604800

def chunkSecs : ℤ := weekSecs * backfillChunkWeeks

/-- One target of one coin, with the source interval selected for it. -/
structure RollupJob where
  coinId : String
  vsCurrency : String
  targetInterval : String
  targetSecs : ℤ
  sourceInterval : String
  sourceSecs : ℤ
  target_mem : (targetInterval, targetSecs) ∈ targetIntervals
  source_secs : intervalSecs sourceInterval = some sourceSecs
  divides : sourceSecs < targetSecs ∧ targetSecs % sourceSecs = 0

/-- `reconcile_window`: what to write, and the times of the rows to delete. -/
def reconcileWindow (previouslyMaterialized emitted : List CoinCandle) : List CoinCandle × List ℤ :=
  let emittedTs := emitted.map fun c => timestamp c.ts
  let stale := previouslyMaterialized.filter fun c => timestamp c.ts ∉ emittedTs
  (emitted, stale.map CoinCandle.ts)

/-- `backward_repair_window`: the history before the oldest materialized bucket,
where there is source for it. -/
def backwardRepairWindow (sourceMinTs earliestMaterializedTs targetSecs : ℤ) : Option (ℤ × ℤ) :=
  if bucketStart sourceMinTs targetSecs < earliestMaterializedTs then
    some (bucketStart sourceMinTs weekSecs, earliestMaterializedTs)
  else
    none

namespace RollupJob

variable (job : RollupJob)

def sourceRows (t : CandleTable) : List CoinCandle :=
  t.series job.coinId job.vsCurrency job.sourceInterval

def rollupRows (t : CandleTable) : List CoinCandle :=
  (t.series job.coinId job.vsCurrency job.targetInterval).filter isRollup

def relabel (row : CoinCandle) : CoinCandle :=
  { row with source := "rollup:" ++ job.sourceInterval }

def materializeFromSource (now : ℤ) (source : List CoinCandle) : List CoinCandle :=
  (aggregateCandles source job.targetSecs job.sourceSecs now job.sourceInterval
    job.targetInterval).map job.relabel

def batchedUpsertCandles (t : CandleTable) (candles : List CoinCandle) : CandleTable :=
  batchedUpsertCoinCandles t candles .rollupGuarded

/-- One window of the walk. -/
def walkChunk (now windowStart : ℤ) (t : CandleTable) : CandleTable :=
  let windowEnd := windowStart + seconds chunkSecs
  let rows := sortByTs ((job.sourceRows t).filter fun c => windowStart ≤ c.ts ∧ c.ts < windowEnd)
  if rows = [] then t else batchedUpsertCandles t (job.materializeFromSource now rows)

def walkLoop (now ceiling : ℤ) : ℕ → ℤ → CandleTable → CandleTable
  | 0, _, t => t
  | fuel + 1, windowStart, t =>
    if timestamp windowStart ≤ timestamp ceiling then
      walkLoop now ceiling fuel (windowStart + seconds chunkSecs) (job.walkChunk now windowStart t)
    else
      t

/-- `materialize_window_walk`. The loop passes the ceiling within this many windows. -/
def materializeWindowWalk (now windowStart ceiling : ℤ) (t : CandleTable) : CandleTable :=
  let windows := ((timestamp ceiling - timestamp windowStart) / chunkSecs + 1).toNat
  job.walkLoop now ceiling windows windowStart t

def backfillTarget (now : ℤ) (t : CandleTable) : CandleTable :=
  match ((job.sourceRows t).map CoinCandle.ts).min? with
  | none => t
  | some earliest => job.materializeWindowWalk now (bucketStart earliest weekSecs) now t

/-- The `DELETE` of a stale bucket. -/
def deleteRollup (t : CandleTable) (ts : ℤ) : CandleTable :=
  t.erase fun c =>
    c.key = ⟨job.coinId, job.vsCurrency, job.targetInterval, ts⟩ ∧ isRollup c

/-- The forward pass of `incremental_recompute_target`. -/
def recomputeForward (now recomputeStart : ℤ) (t : CandleTable) : CandleTable :=
  let previouslyMaterialized := (job.rollupRows t).filter fun c => recomputeStart ≤ c.ts
  let source := (job.sourceRows t).filter fun c => recomputeStart ≤ c.ts
  let emitted := job.materializeFromSource now source
  let (upserts, deletes) := reconcileWindow previouslyMaterialized emitted
  let written := if upserts = [] then t else batchedUpsertCandles t upserts
  deletes.foldl job.deleteRollup written

/-- The history repair of `incremental_recompute_target`. -/
def repairHistory (now : ℤ) (t : CandleTable) : CandleTable :=
  match ((job.sourceRows t).map CoinCandle.ts).min?,
    ((job.rollupRows t).map CoinCandle.ts).min? with
  | some sourceMin, some earliestMaterialized =>
    match backwardRepairWindow sourceMin earliestMaterialized job.targetSecs with
    | some (repairStart, repairEnd) => job.materializeWindowWalk now repairStart repairEnd t
    | none => t
  | _, _ => t

def incrementalRecomputeTarget (now : ℤ) (t : CandleTable) : CandleTable :=
  match ((job.rollupRows t).map CoinCandle.ts).max? with
  | none => job.backfillTarget now t
  | some recomputeStart => job.repairHistory now (job.recomputeForward now recomputeStart t)

def targetKey (b : ℤ) : CandleKey :=
  ⟨job.coinId, job.vsCurrency, job.targetInterval, fromTimestamp b⟩

/-- What the table holds for the target bucket at `b`. -/
def slot (t : CandleTable) (b : ℤ) : Option CoinCandle := t.lookup (job.targetKey b)

/-- What the source emits for the target bucket at `b`. -/
def foldAt (now : ℤ) (t : CandleTable) (b : ℤ) : Option CoinCandle :=
  (bucketCandle job.coinId job.vsCurrency job.targetSecs job.sourceSecs now job.sourceInterval
    job.targetInterval b (job.sourceRows t)).map job.relabel

/-- What the table holds for the bucket after it is folded again. -/
def refold (now : ℤ) (t : CandleTable) (b : ℤ) : Option CoinCandle :=
  match job.foldAt now t b with
  | some c => KeyedTable.overwrite isRollup c (job.slot t b)
  | none => job.slot t b

variable {job} {t t' : CandleTable} {now b : ℤ} {c : CoinCandle}

theorem targetSecs_eq (job : RollupJob) : job.targetSecs = 86400 ∨ job.targetSecs = 604800 := by
  have hmem := job.target_mem
  simp only [targetIntervals, List.mem_cons, Prod.mk.injEq, List.not_mem_nil, or_false] at hmem
  rcases hmem with ⟨-, hsecs⟩ | ⟨-, hsecs⟩
  · exact Or.inl hsecs
  · exact Or.inr hsecs

theorem targetSecs_pos (job : RollupJob) : 0 < job.targetSecs := by
  rcases job.targetSecs_eq with h | h <;> omega

theorem targetSecs_dvd_weekSecs (job : RollupJob) : job.targetSecs ∣ weekSecs := by
  rcases job.targetSecs_eq with h | h <;> rw [h] <;> decide

theorem targetSecs_dvd_chunkSecs (job : RollupJob) : job.targetSecs ∣ chunkSecs :=
  job.targetSecs_dvd_weekSecs.mul_right _

theorem intervalSecs_target (job : RollupJob) :
    intervalSecs job.targetInterval = some job.targetSecs := by
  have hmem := job.target_mem
  simp only [targetIntervals, List.mem_cons, Prod.mk.injEq, List.not_mem_nil, or_false] at hmem
  rcases hmem with ⟨hname, hsecs⟩ | ⟨hname, hsecs⟩ <;> rw [hname, hsecs] <;> rfl

theorem source_ne_target (job : RollupJob) : job.sourceInterval ≠ job.targetInterval := by
  intro heq
  have hsource := job.source_secs
  rw [heq, intervalSecs_target] at hsource
  have hsame := Option.some.inj hsource
  have hlt := job.divides.1
  omega

theorem targetKey_inj {b b' : ℤ} : job.targetKey b = job.targetKey b' ↔ b = b' := by
  simp [targetKey, fromTimestamp_inj]

theorem mem_sourceRows :
    c ∈ job.sourceRows t ↔ t.lookup c.key = some c ∧ c.coinId = job.coinId ∧
      c.vsCurrency = job.vsCurrency ∧ c.interval = job.sourceInterval := by
  rw [sourceRows, CandleTable.mem_series, KeyedTable.mem_rows_iff]

theorem mem_rollupRows :
    c ∈ job.rollupRows t ↔ t.lookup c.key = some c ∧ (c.coinId = job.coinId ∧
      c.vsCurrency = job.vsCurrency ∧ c.interval = job.targetInterval) ∧ isRollup c = true := by
  rw [rollupRows, List.mem_filter, CandleTable.mem_series, KeyedTable.mem_rows_iff, and_assoc]

theorem sourceRows_distinctTs (job : RollupJob) (t : CandleTable) : DistinctTs (job.sourceRows t) :=
  CandleTable.series_distinctTs

theorem sourceRows_ofSeries (job : RollupJob) (t : CandleTable) :
    OfSeries job.coinId job.vsCurrency (job.sourceRows t) :=
  CandleTable.series_ofSeries

theorem mem_rollupRows_iff_slot (hts : c.ts = fromTimestamp b) :
    c ∈ job.rollupRows t ↔ job.slot t b = some c ∧ isRollup c = true := by
  rw [mem_rollupRows, slot]
  constructor
  · rintro ⟨hlookup, ⟨hcoin, hcurrency, hinterval⟩, hrollup⟩
    have hkey : c.key = job.targetKey b := by
      simp [CoinCandle.key, targetKey, hcoin, hcurrency, hinterval, hts]
    exact ⟨hkey ▸ hlookup, hrollup⟩
  · rintro ⟨hlookup, hrollup⟩
    have hkey : c.key = job.targetKey b := KeyedTable.key_eq_of_lookup hlookup
    refine ⟨hkey ▸ hlookup, ?_, hrollup⟩
    simp only [CoinCandle.key, targetKey, CandleKey.mk.injEq] at hkey
    exact ⟨hkey.1, hkey.2.1, hkey.2.2.1⟩

theorem foldAt_congr (h : ∀ c, c ∈ job.sourceRows t ↔ c ∈ job.sourceRows t') :
    job.foldAt now t b = job.foldAt now t' b := by
  have hrows : bucketRows job.targetSecs b (job.sourceRows t) =
      bucketRows job.targetSecs b (job.sourceRows t') :=
    bucketRows_congr (job.sourceRows_distinctTs t) (job.sourceRows_distinctTs t') fun c _ => h c
  rw [foldAt, foldAt, bucketCandle_congr hrows]

theorem foldAt_spec (h : job.foldAt now t b = some c) :
    c.key = job.targetKey b ∧ isRollup c = true ∧ stored c = c ∧
      ∃ row ∈ job.sourceRows t, bucketEpoch job.targetSecs row = b := by
  obtain ⟨row, hrow, rfl⟩ := Option.map_eq_some_iff.mp h
  have hts : row.ts = fromTimestamp b := bucketCandle_ts hrow
  refine ⟨?_, isRollup_of_label rfl, ?_, exists_row_of_bucketCandle hrow⟩
  · obtain ⟨g, -, -, rfl⟩ := bucketCandle_eq_some_iff.mp hrow
    simpa [CoinCandle.key, targetKey, relabel, foldBucket] using hts
  · apply stored_of_micros
    change Micros row.ts
    rw [hts]
    exact micros_fromTimestamp b

/-- A set of whole buckets, as a condition on rows. -/
def WholeBuckets (job : RollupJob) (p : CoinCandle → Bool) (q : ℤ → Prop) : Prop :=
  ∀ row, p row = true ↔ q (bucketEpoch job.targetSecs row)

theorem mem_materializeFromSource {p : CoinCandle → Bool} {q : ℤ → Prop}
    (hwhole : job.WholeBuckets p q) {rows : List CoinCandle}
    (hrows : ∀ row, row ∈ rows ↔ row ∈ job.sourceRows t ∧ p row = true)
    (hdistinct : DistinctTs rows) :
    c ∈ job.materializeFromSource now rows ↔ ∃ b, q b ∧ job.foldAt now t b = some c := by
  have hseries : OfSeries job.coinId job.vsCurrency rows :=
    fun row hrow => job.sourceRows_ofSeries t row ((hrows row).mp hrow).1
  have hbucket : ∀ b, q b → bucketRows job.targetSecs b rows =
      bucketRows job.targetSecs b (job.sourceRows t) := by
    intro b hq
    apply bucketRows_congr hdistinct (job.sourceRows_distinctTs t)
    intro row hb
    rw [hrows row, hwhole row, hb]
    simp [hq]
  simp only [materializeFromSource, List.mem_map, mem_aggregateCandles_iff hseries, foldAt,
    Option.map_eq_some_iff]
  constructor
  · rintro ⟨row, ⟨b, hb⟩, rfl⟩
    obtain ⟨source, hsource, hsourceb⟩ := exists_row_of_bucketCandle hb
    have hq : q b := hsourceb ▸ (hwhole source).mp ((hrows source).mp hsource).2
    exact ⟨b, hq, row, bucketCandle_congr (hbucket b hq) ▸ hb, rfl⟩
  · rintro ⟨b, hq, row, hb, rfl⟩
    exact ⟨row, ⟨b, (bucketCandle_congr (hbucket b hq)).symm ▸ hb⟩, rfl⟩

theorem materializeFromSource_keys_nodup {rows : List CoinCandle} :
    ((job.materializeFromSource now rows).map CoinCandle.key).Nodup := by
  rw [materializeFromSource, List.map_map, List.Nodup, List.pairwise_map]
  have hdesc : Ascending (fun c => OrderDual.toDual c.ts) (aggregateCandles rows job.targetSecs
      job.sourceSecs now job.sourceInterval job.targetInterval) :=
    aggregateCandles_descending _ _ _ _ _ _
  apply hdesc.imp
  intro c d hlt heq
  exact absurd (congrArg CandleKey.ts heq) (ne_of_gt hlt)

/-- The buckets of `q` are folded again; nothing else changes. -/
structure Refolds (job : RollupJob) (now : ℤ) (q : ℤ → Prop) (t t' : CandleTable) : Prop where
  slot_on : ∀ b, q b → job.slot t' b = job.refold now t b
  lookup_off : ∀ k, (∀ b, q b → k ≠ job.targetKey b) → t'.lookup k = t.lookup k

theorem Refolds.sourceRows {q : ℤ → Prop} (h : job.Refolds now q t t') (c : CoinCandle) :
    c ∈ job.sourceRows t' ↔ c ∈ job.sourceRows t := by
  rw [mem_sourceRows, mem_sourceRows]
  apply and_congr_left
  rintro ⟨-, -, hinterval⟩
  rw [h.lookup_off]
  intro b _ hkey
  exact job.source_ne_target (hinterval.symm.trans (congrArg CandleKey.interval hkey))

theorem Refolds.foldAt {q : ℤ → Prop} (h : job.Refolds now q t t') (b : ℤ) :
    job.foldAt now t' b = job.foldAt now t b :=
  foldAt_congr h.sourceRows

theorem Refolds.slot_off {q : ℤ → Prop} (h : job.Refolds now q t t') (hb : ¬q b) :
    job.slot t' b = job.slot t b := by
  apply h.lookup_off
  rintro b' hb' hkey
  exact hb (targetKey_inj.mp hkey ▸ hb')

section Batch

variable {p : CoinCandle → Bool} {q : ℤ → Prop} {rows : List CoinCandle}

theorem lookup_batch (hwhole : job.WholeBuckets p q)
    (hrows : ∀ row, row ∈ rows ↔ row ∈ job.sourceRows t ∧ p row = true)
    (hdistinct : DistinctTs rows) (k : CandleKey) :
    (batchedUpsertCandles t (job.materializeFromSource now rows)).lookup k =
      ((job.materializeFromSource now rows).find? fun c => c.key = k).elim (t.lookup k) fun c =>
        KeyedTable.overwrite isRollup c (t.lookup k) := by
  have hseries : OfSeries job.coinId job.vsCurrency rows :=
    fun row hrow => job.sourceRows_ofSeries t row ((hrows row).mp hrow).1
  have hstored : (job.materializeFromSource now rows).map stored =
      job.materializeFromSource now rows := by
    have hsame : (job.materializeFromSource now rows).map stored =
        (job.materializeFromSource now rows).map id := by
      apply List.map_congr_left
      intro c hc
      obtain ⟨b, -, hb⟩ := (mem_materializeFromSource hwhole hrows hdistinct).mp hc
      exact (foldAt_spec hb).2.2.1
    rw [hsame, List.map_id]
  rw [batchedUpsertCandles, batchedUpsertCoinCandles, hstored]
  exact KeyedTable.lookup_upsertAll _ t materializeFromSource_keys_nodup k

theorem foldAt_of_find (hwhole : job.WholeBuckets p q)
    (hrows : ∀ row, row ∈ rows ↔ row ∈ job.sourceRows t ∧ p row = true)
    (hdistinct : DistinctTs rows) {k : CandleKey}
    (hfound : (job.materializeFromSource now rows).find? (fun c => c.key = k) = some c) :
    ∃ b, q b ∧ k = job.targetKey b ∧ job.foldAt now t b = some c := by
  obtain ⟨b, hq, hb⟩ := (mem_materializeFromSource hwhole hrows hdistinct).mp
    (List.mem_of_find?_eq_some hfound)
  have hkey : c.key = k := by simpa using List.find?_some hfound
  exact ⟨b, hq, hkey ▸ (foldAt_spec hb).1, hb⟩

theorem foldAt_of_find_none (hwhole : job.WholeBuckets p q)
    (hrows : ∀ row, row ∈ rows ↔ row ∈ job.sourceRows t ∧ p row = true)
    (hdistinct : DistinctTs rows) (hq : q b)
    (hfound : (job.materializeFromSource now rows).find?
      (fun c => c.key = job.targetKey b) = none) : job.foldAt now t b = none := by
  by_contra hsome
  obtain ⟨c, hc⟩ := Option.ne_none_iff_exists'.mp hsome
  have hmem := (mem_materializeFromSource hwhole hrows hdistinct).mpr ⟨b, hq, hc⟩
  have hkey := List.find?_eq_none.mp hfound c hmem
  simp [(foldAt_spec hc).1] at hkey

/-- Folding a set of whole buckets and writing what it emits. -/
theorem refolds_batch (hwhole : job.WholeBuckets p q)
    (hrows : ∀ row, row ∈ rows ↔ row ∈ job.sourceRows t ∧ p row = true)
    (hdistinct : DistinctTs rows) :
    job.Refolds now q t (batchedUpsertCandles t (job.materializeFromSource now rows)) := by
  constructor
  · intro b hq
    rw [slot, lookup_batch hwhole hrows hdistinct, refold]
    cases hfound : (job.materializeFromSource now rows).find? fun c => c.key = job.targetKey b with
    | some c =>
      obtain ⟨b', -, hkey, hb'⟩ := foldAt_of_find hwhole hrows hdistinct hfound
      obtain rfl := targetKey_inj.mp hkey
      rw [hb']
      rfl
    | none =>
      rw [foldAt_of_find_none hwhole hrows hdistinct hq hfound]
      rfl
  · intro k hk
    rw [lookup_batch hwhole hrows hdistinct]
    cases hfound : (job.materializeFromSource now rows).find? fun c => c.key = k with
    | some c =>
      obtain ⟨b, hq, hkey, -⟩ := foldAt_of_find hwhole hrows hdistinct hfound
      exact absurd hkey (hk b hq)
    | none => rfl

end Batch

theorem refolds_of_empty {q : ℤ → Prop}
    (hnone : ∀ b, q b → job.foldAt now t b = none) : job.Refolds now q t t where
  slot_on b hq := by rw [refold, hnone b hq]
  lookup_off _ _ := rfl

theorem Refolds.trans {q q' : ℤ → Prop} {t'' : CandleTable} (h : job.Refolds now q t t')
    (h' : job.Refolds now q' t' t'') (hdisjoint : ∀ b, q b → ¬q' b) :
    job.Refolds now (fun b => q b ∨ q' b) t t'' where
  slot_on := by
    rintro b (hq | hq')
    · rw [h'.slot_off (hdisjoint b hq), h.slot_on b hq]
    · have hq : ¬q b := fun hq => hdisjoint b hq hq'
      rw [h'.slot_on b hq', refold, refold, h.foldAt, h.slot_off hq]
  lookup_off k hk := by
    rw [h'.lookup_off k fun b hb => hk b (Or.inr hb), h.lookup_off k fun b hb => hk b (Or.inl hb)]

theorem wholeBuckets_window {lo hi : ℤ} (hlo : job.targetSecs ∣ lo) (hhi : job.targetSecs ∣ hi) :
    job.WholeBuckets (fun c => fromTimestamp lo ≤ c.ts ∧ c.ts < fromTimestamp hi)
      fun b => lo ≤ b ∧ b < hi := by
  intro row
  rw [decide_eq_true_eq, ← boundary_le_bucketEpoch_iff job.targetSecs_pos hlo,
    ← bucketEpoch_lt_boundary_iff job.targetSecs_pos hhi]

theorem fromTimestamp_add_chunk (lo : ℤ) :
    fromTimestamp lo + seconds chunkSecs = fromTimestamp (lo + chunkSecs) := by
  unfold fromTimestamp seconds
  ring

theorem windows_tail {lo ceiling : ℤ} {fuel : ℕ}
    (hwindows : ∀ k < fuel + 1, lo + k * chunkSecs ≤ ceiling) :
    ∀ k < fuel, lo + chunkSecs + k * chunkSecs ≤ ceiling := by
  intro k hk
  have hnext := hwindows (k + 1) (by omega)
  push_cast at hnext
  linarith

theorem wholeBuckets_chunk {lo : ℤ} (hlo : job.targetSecs ∣ lo) :
    job.WholeBuckets (fun c =>
      fromTimestamp lo ≤ c.ts ∧ c.ts < fromTimestamp lo + seconds chunkSecs)
      fun b => lo ≤ b ∧ b < lo + chunkSecs := by
  have hwhole := job.wholeBuckets_window hlo (dvd_add hlo job.targetSecs_dvd_chunkSecs)
  rwa [← fromTimestamp_add_chunk] at hwhole

theorem refolds_walkChunk (job : RollupJob) (now : ℤ) (t : CandleTable) {lo : ℤ}
    (hlo : job.targetSecs ∣ lo) :
    job.Refolds now (fun b => lo ≤ b ∧ b < lo + chunkSecs) t
      (job.walkChunk now (fromTimestamp lo) t) := by
  have hwhole := wholeBuckets_chunk hlo
  have hrows : ∀ row, row ∈ sortByTs ((job.sourceRows t).filter fun c =>
      fromTimestamp lo ≤ c.ts ∧ c.ts < fromTimestamp lo + seconds chunkSecs) ↔
        row ∈ job.sourceRows t ∧
          decide (fromTimestamp lo ≤ row.ts ∧ row.ts < fromTimestamp lo + seconds chunkSecs) =
            true := by
    intro row
    rw [mem_sortByTs, List.mem_filter]
  unfold walkChunk
  simp only
  split_ifs with hempty
  · apply refolds_of_empty
    intro b hb
    by_contra hsome
    obtain ⟨c, hc⟩ := Option.ne_none_iff_exists'.mp hsome
    obtain ⟨row, hrow, hrowb⟩ := (foldAt_spec hc).2.2.2
    have hin := (hrows row).mpr ⟨hrow, (hwhole row).mpr (hrowb.symm ▸ hb)⟩
    rw [hempty] at hin
    cases hin
  · apply refolds_batch hwhole hrows
    have hwindow : DistinctTs ((job.sourceRows t).filter fun c =>
        fromTimestamp lo ≤ c.ts ∧ c.ts < fromTimestamp lo + seconds chunkSecs) :=
      (job.sourceRows_distinctTs t).sublist List.filter_sublist
    have hsorted := sortByTs_ascending hwindow
    unfold DistinctTs
    rw [List.Nodup, List.pairwise_map]
    exact hsorted.imp ne_of_lt

/-- So many windows fold the buckets they span again. -/
theorem refolds_walkLoop (job : RollupJob) (now : ℤ) {ceiling : ℤ} (fuel : ℕ) {lo : ℤ}
    (hlo : job.targetSecs ∣ lo) (hwindows : ∀ k < fuel, lo + k * chunkSecs ≤ timestamp ceiling)
    (t : CandleTable) :
    job.Refolds now (fun b => lo ≤ b ∧ b < lo + fuel * chunkSecs) t
      (job.walkLoop now ceiling fuel (fromTimestamp lo) t) := by
  induction fuel generalizing lo t with
  | zero =>
    apply refolds_of_empty
    rintro b ⟨hlow, hhigh⟩
    simp only [Nat.cast_zero, zero_mul, add_zero] at hhigh
    omega
  | succ fuel ih =>
    have hfirst : lo ≤ timestamp ceiling := by simpa using hwindows 0 (Nat.succ_pos fuel)
    have hnext := dvd_add hlo job.targetSecs_dvd_chunkSecs
    have hchunk := job.refolds_walkChunk now t hlo
    have hrest := ih hnext (windows_tail hwindows) (job.walkChunk now (fromTimestamp lo) t)
    have hspan : 0 ≤ (fuel : ℤ) * chunkSecs := mul_nonneg (Int.natCast_nonneg _) (by decide)
    have hunion : (fun b => (lo ≤ b ∧ b < lo + chunkSecs) ∨
        (lo + chunkSecs ≤ b ∧ b < lo + chunkSecs + fuel * chunkSecs)) =
          fun b => lo ≤ b ∧ b < lo + (fuel + 1 : ℕ) * chunkSecs := by
      have hpos : 0 < chunkSecs := by decide
      funext b
      apply propext
      push_cast
      rw [add_mul, one_mul]
      omega
    rw [walkLoop, timestamp_fromTimestamp, if_pos hfirst, fromTimestamp_add_chunk, ← hunion]
    exact hchunk.trans hrest fun b hb hb' => by omega

/-- Where the windows from `lo` on pass the ceiling, in seconds. -/
def walkStop (lo ceiling : ℤ) : ℤ := lo + ((ceiling - lo) / chunkSecs + 1).toNat * chunkSecs

theorem window_le_ceiling {lo ceiling : ℤ} (k : ℕ)
    (hk : k < ((ceiling - lo) / chunkSecs + 1).toNat) : lo + k * chunkSecs ≤ ceiling := by
  have hpos : 0 < chunkSecs := by decide
  have hle : (k : ℤ) ≤ (ceiling - lo) / chunkSecs := by omega
  have hmul := (Int.le_ediv_iff_mul_le hpos).mp hle
  omega

theorem lt_walkStop (lo ceiling : ℤ) : ceiling < walkStop lo ceiling := by
  have hpos : 0 < chunkSecs := by decide
  have hlt := Int.lt_ediv_add_one_mul_self (ceiling - lo) hpos
  have htoNat := Int.self_le_toNat ((ceiling - lo) / chunkSecs + 1)
  have hmul := mul_le_mul_of_nonneg_right htoNat hpos.le
  unfold walkStop
  omega

/-- The start of a week, in seconds, is the start of a bucket. -/
theorem targetSecs_dvd_week (job : RollupJob) (x : ℤ) :
    job.targetSecs ∣ timestamp (bucketStart x weekSecs) := by
  rw [timestamp_bucketStart]
  exact job.targetSecs_dvd_weekSecs.trans Int.dvd_self_sub_emod

/-- The walk folds every bucket from its start to beyond the ceiling again. -/
theorem refolds_windowWalk (job : RollupJob) (now x ceiling : ℤ) (t : CandleTable) :
    job.Refolds now (fun b => timestamp (bucketStart x weekSecs) ≤ b ∧
        b < walkStop (timestamp (bucketStart x weekSecs)) (timestamp ceiling)) t
      (job.materializeWindowWalk now (bucketStart x weekSecs) ceiling t) := by
  have hrefolds := @refolds_walkLoop job now ceiling _ _ (job.targetSecs_dvd_week x)
    window_le_ceiling t
  rw [fromTimestamp_bucketStart] at hrefolds
  exact hrefolds

theorem Refolds.extend {q q' : ℤ → Prop} (h : job.Refolds now q t t') (hsub : ∀ b, q b → q' b)
    (hnone : ∀ b, q' b → ¬q b → job.foldAt now t b = none) : job.Refolds now q' t t' where
  slot_on b hb := by
    by_cases hq : q b
    · exact h.slot_on b hq
    · rw [h.slot_off hq, refold, hnone b hb hq]
  lookup_off k hk := h.lookup_off k fun b hb => hk b (hsub b hb)

theorem exists_sourceRow_of_foldAt (h : job.foldAt now t b ≠ none) :
    ∃ row ∈ job.sourceRows t, bucketEpoch job.targetSecs row = b := by
  obtain ⟨c, hc⟩ := Option.ne_none_iff_exists'.mp h
  exact (foldAt_spec hc).2.2.2

theorem week_le_bucketEpoch {first : ℤ}
    (hfirst : ((job.sourceRows t).map CoinCandle.ts).min? = some first)
    {row : CoinCandle} (hrow : row ∈ job.sourceRows t) :
    timestamp (bucketStart first weekSecs) ≤ bucketEpoch job.targetSecs row := by
  have hle : first ≤ row.ts := (List.min?_eq_some_iff.mp hfirst).2 _ (List.mem_map_of_mem hrow)
  have hweek : bucketStart first weekSecs ≤ row.ts :=
    (bucketStart_le (by decide)).trans hle
  rw [boundary_le_bucketEpoch_iff job.targetSecs_pos (job.targetSecs_dvd_week first)]
  exact (fromTimestamp_timestamp_le _).trans hweek

/-- Every bucket of the source has begun at the clock. -/
def Begun (job : RollupJob) (now : ℤ) (t : CandleTable) : Prop :=
  ∀ row ∈ job.sourceRows t, bucketEpoch job.targetSecs row ≤ timestamp now

instance (job : RollupJob) (now : ℤ) (t : CandleTable) : Decidable (job.Begun now t) :=
  inferInstanceAs (Decidable (∀ row ∈ job.sourceRows t, _))

/-- A backfill folds every bucket of the source again. -/
theorem refolds_backfillTarget (hbegun : job.Begun now t) :
    job.Refolds now (fun _ => True) t (job.backfillTarget now t) := by
  unfold backfillTarget
  cases hmin : ((job.sourceRows t).map CoinCandle.ts).min? with
  | none =>
    apply refolds_of_empty
    intro b _
    by_contra hsome
    obtain ⟨row, hrow, -⟩ := exists_sourceRow_of_foldAt hsome
    rw [List.min?_eq_none_iff, List.map_eq_nil_iff] at hmin
    rw [hmin] at hrow
    cases hrow
  | some first =>
    have hceiling := lt_walkStop (timestamp (bucketStart first weekSecs)) (timestamp now)
    apply (job.refolds_windowWalk now first now t).extend (fun _ _ => trivial)
    intro b _ hout
    by_contra hsome
    obtain ⟨row, hrow, rfl⟩ := exists_sourceRow_of_foldAt hsome
    have hlow := week_le_bucketEpoch hmin hrow
    have hhigh := hbegun row hrow
    exact hout ⟨hlow, by omega⟩

end RollupJob
end CryptoCollector.Collectors

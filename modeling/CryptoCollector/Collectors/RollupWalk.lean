import CryptoCollector.Collectors.RollupConvergence

/-!
# The chunked walk and the one-shot fold

What the windows of a walk upsert, put together, is the fold of the whole source range
in one piece: no bucket straddles a cut, and each cut is passed once.
-/

namespace CryptoCollector.Collectors
open Models Foundations Db Api DateTime

namespace RollupJob

variable (job : RollupJob)

/-- The source rows that a window of the walk loads. -/
def windowRows (windowStart : ℤ) (t : CandleTable) : List CoinCandle :=
  sortByTs ((job.sourceRows t).filter fun c =>
    windowStart ≤ c.ts ∧ c.ts < windowStart + seconds chunkSecs)

def chunkUpserts (now windowStart : ℤ) (t : CandleTable) : List CoinCandle :=
  let rows := job.windowRows windowStart t
  if rows = [] then [] else job.materializeFromSource now rows

/-- The batches that the loop of `materialize_window_walk` upserts, window by window. -/
def walkUpserts (now ceiling : ℤ) : ℕ → ℤ → CandleTable → List (List CoinCandle)
  | 0, _, _ => []
  | fuel + 1, windowStart, t =>
    if timestamp windowStart ≤ timestamp ceiling then
      job.chunkUpserts now windowStart t ::
        walkUpserts now ceiling fuel (windowStart + seconds chunkSecs)
          (job.walkChunk now windowStart t)
    else
      []

/-- The batches that `materialize_window_walk` upserts. -/
def windowWalkUpserts (now windowStart ceiling : ℤ) (t : CandleTable) : List (List CoinCandle) :=
  let windows := ((timestamp ceiling - timestamp windowStart) / chunkSecs + 1).toNat
  job.walkUpserts now ceiling windows windowStart t

variable {job} {t t' : CandleTable} {now b lo : ℤ} {c : CoinCandle}

theorem walkChunk_eq (job : RollupJob) (now windowStart : ℤ) (t : CandleTable) :
    job.walkChunk now windowStart t =
      batchedUpsertCandles t (job.chunkUpserts now windowStart t) := by
  change (if job.windowRows windowStart t = [] then t
    else batchedUpsertCandles t (job.materializeFromSource now (job.windowRows windowStart t))) = _
  unfold chunkUpserts
  simp only
  split_ifs
  · rfl
  · rfl

/-- The walk does nothing but upsert its batches in turn. -/
theorem walkLoop_eq_foldl (job : RollupJob) (now ceiling : ℤ) (fuel : ℕ) (windowStart : ℤ)
    (t : CandleTable) :
    job.walkLoop now ceiling fuel windowStart t =
      (job.walkUpserts now ceiling fuel windowStart t).foldl batchedUpsertCandles t := by
  induction fuel generalizing windowStart t with
  | zero => rfl
  | succ fuel ih =>
    unfold walkLoop walkUpserts
    split_ifs
    · rw [List.foldl_cons, ← walkChunk_eq, ih]
    · rfl

theorem windowRows_distinctTs {windowStart : ℤ} : DistinctTs (job.windowRows windowStart t) := by
  have hwindow : DistinctTs ((job.sourceRows t).filter fun c =>
      windowStart ≤ c.ts ∧ c.ts < windowStart + seconds chunkSecs) :=
    (job.sourceRows_distinctTs t).sublist List.filter_sublist
  unfold DistinctTs
  rw [List.Nodup, List.pairwise_map]
  exact (sortByTs_ascending hwindow).imp ne_of_lt

theorem mem_chunkUpserts (hlo : job.targetSecs ∣ lo) :
    c ∈ job.chunkUpserts now (fromTimestamp lo) t ↔
      ∃ b, (lo ≤ b ∧ b < lo + chunkSecs) ∧ job.foldAt now t b = some c := by
  have hrows : ∀ row, row ∈ job.windowRows (fromTimestamp lo) t ↔ row ∈ job.sourceRows t ∧
      decide (fromTimestamp lo ≤ row.ts ∧
        row.ts < fromTimestamp lo + seconds chunkSecs) = true := by
    intro row
    rw [windowRows, mem_sortByTs, List.mem_filter]
  have hmem := @mem_materializeFromSource job t now c _ _ (wholeBuckets_chunk hlo) _ hrows
    windowRows_distinctTs
  rw [← hmem, chunkUpserts]
  split_ifs with hempty
  · rw [hempty]
    rfl
  · rfl

theorem chunkUpserts_keys_nodup {windowStart : ℤ} :
    ((job.chunkUpserts now windowStart t).map CoinCandle.key).Nodup := by
  unfold chunkUpserts
  simp only
  split_ifs
  · exact List.nodup_nil
  · exact materializeFromSource_keys_nodup

theorem mem_walkUpserts {ceiling : ℤ} (fuel : ℕ) (hlo : job.targetSecs ∣ lo)
    (hwindows : ∀ k < fuel, lo + k * chunkSecs ≤ timestamp ceiling) :
    c ∈ (job.walkUpserts now ceiling fuel (fromTimestamp lo) t).flatten ↔
      ∃ b, (lo ≤ b ∧ b < lo + fuel * chunkSecs) ∧ job.foldAt now t b = some c := by
  induction fuel generalizing lo t with
  | zero =>
    simp only [walkUpserts, List.flatten_nil, List.not_mem_nil, false_iff, not_exists, not_and]
    rintro b ⟨hlow, hhigh⟩
    simp only [Nat.cast_zero, zero_mul, add_zero] at hhigh
    omega
  | succ fuel ih =>
    have hpos : 0 < chunkSecs := by decide
    have hfirst : lo ≤ timestamp ceiling := by simpa using hwindows 0 (Nat.succ_pos fuel)
    have hrest := windows_tail hwindows
    have hchunk := job.refolds_walkChunk now t hlo
    rw [walkUpserts, timestamp_fromTimestamp, if_pos hfirst, List.flatten_cons, List.mem_append,
      mem_chunkUpserts hlo, fromTimestamp_add_chunk,
      ih (dvd_add hlo job.targetSecs_dvd_chunkSecs) hrest]
    simp only [hchunk.foldAt]
    have hspan : 0 ≤ (fuel : ℤ) * chunkSecs := by positivity
    have hend : lo + ((fuel + 1 : ℕ) : ℤ) * chunkSecs = lo + chunkSecs + fuel * chunkSecs := by
      push_cast
      ring
    rw [hend]
    constructor
    · rintro (⟨b, hb, hfold⟩ | ⟨b, hb, hfold⟩)
      · exact ⟨b, ⟨hb.1, by omega⟩, hfold⟩
      · exact ⟨b, ⟨by omega, hb.2⟩, hfold⟩
    · rintro ⟨b, hb, hfold⟩
      by_cases hcut : b < lo + chunkSecs
      · exact Or.inl ⟨b, ⟨hb.1, hcut⟩, hfold⟩
      · exact Or.inr ⟨b, ⟨not_lt.mp hcut, hb.2⟩, hfold⟩

theorem walkUpserts_keys_nodup {ceiling : ℤ} (now : ℤ) (fuel : ℕ) (t : CandleTable)
    (hlo : job.targetSecs ∣ lo)
    (hwindows : ∀ k < fuel, lo + k * chunkSecs ≤ timestamp ceiling) :
    ((job.walkUpserts now ceiling fuel (fromTimestamp lo) t).flatten.map CoinCandle.key).Nodup := by
  induction fuel generalizing lo t with
  | zero => exact List.nodup_nil
  | succ fuel ih =>
    have hfirst : lo ≤ timestamp ceiling := by simpa using hwindows 0 (Nat.succ_pos fuel)
    have hrest := windows_tail hwindows
    have hnext : job.targetSecs ∣ lo + chunkSecs := dvd_add hlo job.targetSecs_dvd_chunkSecs
    rw [walkUpserts, timestamp_fromTimestamp, if_pos hfirst, List.flatten_cons, List.map_append,
      fromTimestamp_add_chunk, List.nodup_append]
    refine ⟨chunkUpserts_keys_nodup, ih _ hnext hrest, ?_⟩
    -- the rows of the first window lie before the cut, the others behind it
    rintro k hk _ hlater rfl
    obtain ⟨c, hc, hck⟩ := List.mem_map.mp hk
    obtain ⟨d, hd, hdk⟩ := List.mem_map.mp hlater
    obtain ⟨b, hb, hfold⟩ := (mem_chunkUpserts hlo).mp hc
    obtain ⟨b', hb', hfold'⟩ := (mem_walkUpserts fuel hnext hrest).mp hd
    have hkeys : job.targetKey b = job.targetKey b' := by
      rw [← (foldAt_spec hfold).1, ← (foldAt_spec hfold').1, hck, hdk]
    have hsame := targetKey_inj.mp hkeys
    omega

def walkEnd (start ceiling : ℤ) : ℤ :=
  start + seconds chunkSecs * ((ceiling - start) / seconds chunkSecs + 1)

theorem windows_eq (lo ceiling : ℤ) :
    (timestamp ceiling - lo) / chunkSecs =
      (ceiling - fromTimestamp lo) / seconds chunkSecs := by
  have hsecs : seconds chunkSecs = 1000000000 * chunkSecs := by
    unfold seconds
    ring
  have hwhole : (ceiling - fromTimestamp lo) / 1000000000 = timestamp ceiling - lo := by
    unfold fromTimestamp timestamp
    omega
  rw [hsecs, ← Int.ediv_ediv_of_nonneg (by decide), hwhole]

theorem walkEnd_eq {ceiling : ℤ} (hceiling : fromTimestamp lo ≤ ceiling) :
    walkEnd (fromTimestamp lo) ceiling =
      fromTimestamp (walkStop lo (timestamp ceiling)) := by
  have hpos : 0 < chunkSecs := by decide
  have hsecs : lo ≤ timestamp ceiling := le_timestamp_iff.mpr hceiling
  have hwindows : 0 ≤ (timestamp ceiling - lo) / chunkSecs :=
    Int.ediv_nonneg (by omega) hpos.le
  rw [walkStop, Int.toNat_of_nonneg (by omega), walkEnd, ← windows_eq]
  unfold seconds fromTimestamp
  ring

/-- What the windows of a walk upsert is what the whole range emits. -/
theorem windowWalkUpserts_perm (job : RollupJob) (now x ceiling : ℤ) (t : CandleTable)
    (hceiling : bucketStart x weekSecs ≤ ceiling) :
    (job.windowWalkUpserts now (bucketStart x weekSecs) ceiling t).flatten.Perm
      (job.materializeFromSource now ((job.sourceRows t).filter fun c =>
        bucketStart x weekSecs ≤ c.ts ∧ c.ts < walkEnd (bucketStart x weekSecs) ceiling)) ∧
      ((job.windowWalkUpserts now (bucketStart x weekSecs) ceiling t).flatten.map
        CoinCandle.key).Nodup := by
  obtain ⟨lo, hdvd, hstart⟩ : ∃ lo, job.targetSecs ∣ lo ∧
      bucketStart x weekSecs = fromTimestamp lo :=
    ⟨_, job.targetSecs_dvd_week x, fromTimestamp_bucketStart.symm⟩
  rw [hstart] at hceiling ⊢
  rw [windowWalkUpserts, timestamp_fromTimestamp, walkEnd_eq hceiling, walkStop]
  set windows := ((timestamp ceiling - lo) / chunkSecs + 1).toNat
  have hkeys := walkUpserts_keys_nodup now windows t hdvd window_le_ceiling
  refine ⟨?_, hkeys⟩
  have hend : job.targetSecs ∣ lo + windows * chunkSecs :=
    dvd_add hdvd (job.targetSecs_dvd_chunkSecs.mul_left _)
  have hrange : DistinctTs ((job.sourceRows t).filter fun c =>
      fromTimestamp lo ≤ c.ts ∧ c.ts < fromTimestamp (lo + windows * chunkSecs)) :=
    (job.sourceRows_distinctTs t).sublist List.filter_sublist
  rw [List.perm_ext_iff_of_nodup (List.Nodup.of_map _ hkeys)
    (List.Nodup.of_map _ materializeFromSource_keys_nodup)]
  intro c
  rw [mem_walkUpserts windows hdvd window_le_ceiling,
    mem_materializeFromSource (job.wholeBuckets_window hdvd hend) (fun _ => List.mem_filter) hrange]

variable (job) in
/-- A fold writes the bucket: the source emits it at the clock, and no native row
holds it. -/
def Writes (now : ℤ) (t : CandleTable) (b : ℤ) : Prop :=
  job.foldAt now t b ≠ none ∧ ¬NativeHeld t (job.targetKey b)

theorem refold_of_writes (h : job.Writes now t b) :
    job.refold now t b = job.foldAt now t b := by
  obtain ⟨c, hc⟩ := Option.ne_none_iff_exists'.mp h.1
  rw [refold, hc]
  cases hslot : job.slot t b with
  | none => rfl
  | some old =>
    by_cases hrollup : isRollup old = true
    · simp [KeyedTable.overwrite, hrollup]
    · exact absurd ⟨old, hslot, by simpa using hrollup⟩ h.2

theorem refold_of_not_writes (h : ¬job.Writes now t b) :
    job.refold now t b = job.slot t b := by
  cases hc : job.foldAt now t b with
  | none => rw [refold, hc]
  | some c =>
    obtain ⟨old, hold, hnative⟩ : NativeHeld t (job.targetKey b) := by
      by_contra hfree
      exact h ⟨by simp [hc], hfree⟩
    rw [refold, hc, slot, hold]
    simp [KeyedTable.overwrite, hnative]

/-- The first full run leaves what the source emits, except where native rows stand. -/
theorem rollupRows_backfillTarget (hrows : job.rollupRows t = []) (hbegun : job.Begun now t) :
    c ∈ job.rollupRows (job.backfillTarget now t) ↔
      (∃ b, job.foldAt now t b = some c) ∧ ¬NativeHeld t c.key := by
  have hrefolds := refolds_backfillTarget hbegun
  constructor
  · intro hc
    obtain ⟨hlookup, hseries, hrollup⟩ := mem_rollupRows.mp hc
    -- no row of the table before the run is a rollup
    have hnew : t.lookup c.key ≠ some c := by
      intro hold
      have hrow := mem_rollupRows.mpr ⟨hold, hseries, hrollup⟩
      rw [hrows] at hrow
      cases hrow
    by_cases hoff : ∀ b, c.key ≠ job.targetKey b
    · rw [hrefolds.lookup_off _ fun b _ => hoff b] at hlookup
      exact absurd hlookup hnew
    · push Not at hoff
      obtain ⟨b, hkey⟩ := hoff
      rw [hkey] at hlookup hnew ⊢
      have hslot : job.refold now t b = some c := (hrefolds.slot_on b trivial).symm.trans hlookup
      by_cases hwrites : job.Writes now t b
      · rw [refold_of_writes hwrites] at hslot
        exact ⟨⟨b, hslot⟩, hwrites.2⟩
      · rw [refold_of_not_writes hwrites] at hslot
        exact absurd hslot hnew
  · rintro ⟨⟨b, hfold⟩, hfree⟩
    obtain ⟨hkey, hrollup, -, -⟩ := foldAt_spec hfold
    rw [hkey] at hfree
    have hwrites : job.Writes now t b := ⟨by simp [hfold], hfree⟩
    apply (mem_rollupRows_iff_slot (foldAt_ts hfold)).mpr
    rw [hrefolds.slot_on b trivial, refold_of_writes hwrites]
    exact ⟨hfold, hrollup⟩

theorem begun_of_ts_le (hpast : ∀ row ∈ job.sourceRows t, row.ts ≤ now) : job.Begun now t := by
  intro row hrow
  have hdvd := dvd_bucketEpoch job.targetSecs row
  obtain ⟨hlow, -⟩ := (bucketEpoch_eq_iff job.targetSecs_pos hdvd row).mp rfl
  exact le_timestamp_iff.mpr (hlow.trans (hpast row hrow))

/-- The windows of a walk upsert the fold of the whole range, up to the label, each
bucket once; the first full run leaves the fold of the whole source where no native
row stands. -/
theorem windowWalk_meets_fold (job : RollupJob) (now x ceiling : ℤ) (t : CandleTable)
    (hceiling : bucketStart x weekSecs ≤ ceiling) :
    (job.windowWalkUpserts now (bucketStart x weekSecs) ceiling t).flatten.Perm
        ((aggregateCandles ((job.sourceRows t).filter fun c =>
          bucketStart x weekSecs ≤ c.ts ∧ c.ts < walkEnd (bucketStart x weekSecs) ceiling)
            job.targetSecs job.sourceSecs now job.sourceInterval job.targetInterval).map
              job.relabel) ∧
      ((job.windowWalkUpserts now (bucketStart x weekSecs) ceiling t).flatten.map
        CoinCandle.ts).Nodup ∧
      job.materializeWindowWalk now (bucketStart x weekSecs) ceiling t =
        (job.windowWalkUpserts now (bucketStart x weekSecs) ceiling t).foldl
          batchedUpsertCandles t ∧
      (job.rollupRows t = [] → (∀ row ∈ job.sourceRows t, row.ts ≤ now) → ∀ c,
        c ∈ job.rollupRows (job.incrementalRecomputeTarget now t) ↔
          c ∈ (aggregateCandles (job.sourceRows t) job.targetSecs job.sourceSecs now
            job.sourceInterval job.targetInterval).map job.relabel ∧ ¬NativeHeld t c.key) := by
  have hperm := (windowWalkUpserts_perm job now x ceiling t hceiling).1
  refine ⟨hperm, ?_, job.walkLoop_eq_foldl now ceiling _ _ t, ?_⟩
  · rw [(hperm.map CoinCandle.ts).nodup_iff, materializeFromSource, List.map_map, List.Nodup,
      List.pairwise_map]
    have hdesc : Ascending (fun c => OrderDual.toDual c.ts) (aggregateCandles
        ((job.sourceRows t).filter fun c =>
          bucketStart x weekSecs ≤ c.ts ∧ c.ts < walkEnd (bucketStart x weekSecs) ceiling)
        job.targetSecs job.sourceSecs now job.sourceInterval job.targetInterval) :=
      aggregateCandles_descending _ _ _ _ _ _
    apply hdesc.imp
    intro c d hlt heq
    exact absurd heq (ne_of_gt hlt)
  · intro hrows hpast c
    have hfirst : job.incrementalRecomputeTarget now t = job.backfillTarget now t := by
      rw [incrementalRecomputeTarget, hrows]
      rfl
    rw [hfirst, rollupRows_backfillTarget hrows (begun_of_ts_le hpast),
      ← mem_materialize_sourceRows]
    rfl

end RollupJob

section HalfDays

/-- Two days five weeks apart arrive, and a native daily row for the second. -/
def firstHistory : List RollupJob.Event :=
  [.write (halfDay 0), .write (halfDay 1), .write (halfDay 70), .write (halfDay 71),
    .write { wholeDay 35 2 with source := "binance" }]

theorem halfDay_walk_meets_fold :
    (halfDayJob.windowWalkUpserts (hoursInto2024 960) (bucketStart (hoursInto2024 0) weekSecs)
        (hoursInto2024 960) (halfDayTable firstHistory)).flatten.Perm
        ((aggregateCandles ((halfDayJob.sourceRows (halfDayTable firstHistory)).filter fun c =>
          bucketStart (hoursInto2024 0) weekSecs ≤ c.ts ∧
            c.ts < RollupJob.walkEnd (bucketStart (hoursInto2024 0) weekSecs) (hoursInto2024 960))
            halfDayJob.targetSecs halfDayJob.sourceSecs (hoursInto2024 960)
              halfDayJob.sourceInterval halfDayJob.targetInterval).map halfDayJob.relabel) ∧
      ∀ c, c ∈ halfDayJob.rollupRows (halfDayJob.incrementalRecomputeTarget (hoursInto2024 960)
          (halfDayTable firstHistory)) ↔
        c ∈ (aggregateCandles (halfDayJob.sourceRows (halfDayTable firstHistory))
          halfDayJob.targetSecs halfDayJob.sourceSecs (hoursInto2024 960)
            halfDayJob.sourceInterval halfDayJob.targetInterval).map halfDayJob.relabel ∧
          ¬RollupJob.NativeHeld (halfDayTable firstHistory) c.key := by
  have hfold := RollupJob.windowWalk_meets_fold halfDayJob (hoursInto2024 960) (hoursInto2024 0)
    (hoursInto2024 960) (halfDayTable firstHistory) (by decide)
  exact ⟨hfold.1, hfold.2.2.2 (by decide +kernel) (by decide +kernel)⟩

/-- The rows of a walk carry the label of the rollup, and the first full run writes
none where a native row stands. -/
theorem walk_differs_from_read_path :
    ¬(halfDayJob.windowWalkUpserts (hoursInto2024 960) (bucketStart (hoursInto2024 0) weekSecs)
        (hoursInto2024 960) (halfDayTable firstHistory)).flatten.Perm
        (aggregateCandles ((halfDayJob.sourceRows (halfDayTable firstHistory)).filter fun c =>
          bucketStart (hoursInto2024 0) weekSecs ≤ c.ts ∧
            c.ts < RollupJob.walkEnd (bucketStart (hoursInto2024 0) weekSecs) (hoursInto2024 960))
            halfDayJob.targetSecs halfDayJob.sourceSecs (hoursInto2024 960)
              halfDayJob.sourceInterval halfDayJob.targetInterval) ∧
      halfDayJob.rollupRows (halfDayTable firstHistory) = [] ∧
      (∀ row ∈ halfDayJob.sourceRows (halfDayTable firstHistory), row.ts ≤ hoursInto2024 960) ∧
      ¬∀ c, c ∈ halfDayJob.rollupRows (halfDayJob.incrementalRecomputeTarget (hoursInto2024 960)
          (halfDayTable firstHistory)) ↔
        c ∈ (aggregateCandles (halfDayJob.sourceRows (halfDayTable firstHistory))
          halfDayJob.targetSecs halfDayJob.sourceSecs (hoursInto2024 960)
            halfDayJob.sourceInterval halfDayJob.targetInterval).map halfDayJob.relabel := by
  refine ⟨by decide +kernel, by decide +kernel, by decide +kernel, fun hall => ?_⟩
  have hemitted := (hall (wholeDay 35 2)).mpr (by decide +kernel)
  exact absurd hemitted (by decide +kernel)

end HalfDays
end CryptoCollector.Collectors

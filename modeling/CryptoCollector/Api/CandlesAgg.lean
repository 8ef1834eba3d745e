import CryptoCollector.Foundations.Groups
import CryptoCollector.Models.Candle
import CryptoCollector.Models.Interval
import CryptoCollector.Time

/-!
# Candle aggregation

Source candles are folded into the buckets of a longer interval. A closed bucket
is emitted when it is complete, a forming one as it stands. `aggregate_candles`
is `aggregateCandles`; `bucketCandle` says what it emits for one bucket.
-/

namespace CryptoCollector.Api
open Models Foundations DateTime

/-- `interval_secs`: the duration of a stored interval string. -/
def intervalSecs (interval : String) : Option ℤ :=
  (ApiInterval.fromStr interval).map ApiInterval.secs

/-- The span of time one interval of a series is stored for. -/
structure IntervalCoverage where
  interval : String
  earliest : ℤ
  latest : ℤ
  deriving DecidableEq, Repr

/-- The intervals that divide the target, with their durations. -/
def divisors (stored : List IntervalCoverage) (targetSecs : ℤ) : List (ℤ × IntervalCoverage) :=
  stored.filterMap fun c =>
    (intervalSecs c.interval).bind fun secs =>
      if secs < targetSecs ∧ targetSecs % secs = 0 then some (secs, c) else none

/-- The seconds of the window `[floor, now]` the interval cannot serve. -/
def coverageScore (floor now : ℤ) (c : IntervalCoverage) : ℤ :=
  let deepMiss := max (numSeconds (c.earliest - floor)) 0
  let staleMiss := max (numSeconds (now - c.latest)) 0
  deepMiss + staleMiss

/-- The lower score comes first, then the larger divisor. -/
def coversBetter (floor now : ℤ) (d d' : ℤ × IntervalCoverage) : Bool :=
  let score := coverageScore floor now d.2
  let score' := coverageScore floor now d'.2
  score < score' ∨ score = score' ∧ d'.1 < d.1

/-- `select_source_interval`: the divisor that misses the fewest seconds of the
window, the larger one on ties. -/
def selectSourceInterval (stored : List IntervalCoverage) (targetSecs : ℤ)
    (windowStart : Option ℤ) (now : ℤ) : Option String :=
  let candidates := divisors stored targetSecs
  let floor := windowStart.getD
    ((candidates.map fun d => d.2.earliest).min?.getD now)
  (firstMin (coversBetter floor now) candidates).map fun d => d.2.interval

theorem selectSourceInterval_divides {stored : List IntervalCoverage} {targetSecs : ℤ}
    {windowStart : Option ℤ} {now : ℤ} {interval : String}
    (h : selectSourceInterval stored targetSecs windowStart now = some interval) :
    ∃ secs, intervalSecs interval = some secs ∧ 0 < secs ∧ secs < targetSecs ∧
      targetSecs % secs = 0 := by
  obtain ⟨⟨secs, c⟩, hbest, rfl⟩ := Option.map_eq_some_iff.mp h
  obtain ⟨c', -, hc'⟩ := List.mem_filterMap.mp (firstMin_mem hbest)
  obtain ⟨secs', hsecs, hif⟩ := Option.bind_eq_some_iff.mp hc'
  split_ifs at hif with hdiv
  cases hif
  obtain ⟨i, -, hi⟩ := Option.map_eq_some_iff.mp hsecs
  exact ⟨secs, hsecs, hi ▸ i.secs_pos, hdiv⟩

/-- `bucket_start`: the start of the bucket of `targetSecs` seconds that holds `ts`. -/
def bucketStart (ts targetSecs : ℤ) : ℤ := fromTimestamp (timestamp ts - timestamp ts % targetSecs)

/-- `fold_volume`: the sum when every component is present. -/
def foldVolume (volumes : List (Option ℚ)) : Option ℚ :=
  if volumes.all Option.isSome then some (volumes.filterMap id).sum else none

def bucketEpoch (targetSecs : ℤ) (c : CoinCandle) : ℤ := timestamp (bucketStart c.ts targetSecs)

def isClosed (bsEpoch targetSecs now : ℤ) : Bool := bsEpoch + targetSecs ≤ timestamp now

/-- The candle of one bucket, whose rows ascend in time. -/
def foldBucket (coinId vsCurrency targetInterval aggSource : String) (g : Group ℤ CoinCandle) :
    CoinCandle where
  coinId := coinId
  vsCurrency := vsCurrency
  interval := targetInterval
  ts := fromTimestamp g.key
  openPrice := g.first.openPrice
  high := (g.rest.map CoinCandle.high).foldl max g.first.high
  low := (g.rest.map CoinCandle.low).foldl min g.first.low
  close := g.last.close
  volume := foldVolume (g.items.map CoinCandle.volume)
  source := aggSource

/-- A closed bucket short of its `n` source candles is dropped. -/
def isDropped (targetSecs sourceSecs now : ℤ) (g : Group ℤ CoinCandle) : Bool :=
  isClosed g.key targetSecs now && decide (g.items.length < (targetSecs / sourceSecs).toNat)

def aggregateCandles (source : List CoinCandle) (targetSecs sourceSecs now : ℤ)
    (sourceIntervalLabel targetInterval : String) : List CoinCandle :=
  match sortByTs source with
  | [] => []
  | first :: rest =>
    let bucketMap := groupBy (bucketEpoch targetSecs) (first :: rest)
    let kept := bucketMap.filter fun g => !isDropped targetSecs sourceSecs now g
    sortByTsDesc (kept.map (foldBucket first.coinId first.vsCurrency targetInterval
      ("aggregated:" ++ sourceIntervalLabel)))

section Buckets

variable {targetSecs ts : ℤ}

theorem timestamp_bucketStart :
    timestamp (bucketStart ts targetSecs) = timestamp ts - timestamp ts % targetSecs :=
  timestamp_fromTimestamp _

theorem fromTimestamp_bucketStart :
    fromTimestamp (timestamp (bucketStart ts targetSecs)) = bucketStart ts targetSecs := by
  rw [timestamp_bucketStart, bucketStart]

theorem fromTimestamp_bucketEpoch (c : CoinCandle) :
    fromTimestamp (bucketEpoch targetSecs c) = bucketStart c.ts targetSecs :=
  fromTimestamp_bucketStart

theorem dvd_bucketEpoch (targetSecs : ℤ) (c : CoinCandle) :
    targetSecs ∣ bucketEpoch targetSecs c := by
  rw [bucketEpoch, timestamp_bucketStart]
  exact Int.dvd_self_sub_emod

theorem bucketStart_le (hpos : 0 < targetSecs) : bucketStart ts targetSecs ≤ ts := by
  have hmod := Int.emod_nonneg (timestamp ts) hpos.ne'
  have hfloor := fromTimestamp_timestamp_le ts
  unfold bucketStart
  have hle : fromTimestamp (timestamp ts - timestamp ts % targetSecs) ≤
      fromTimestamp (timestamp ts) := fromTimestamp_le.mpr (by omega)
  exact hle.trans hfloor

theorem boundary_add_le {a b : ℤ} (ha : targetSecs ∣ a) (hb : targetSecs ∣ b) (hlt : a < b) :
    a + targetSecs ≤ b := by
  have hgap := Int.le_of_dvd (by omega) (dvd_sub hb ha)
  omega

theorem bucketStart_mono (hpos : 0 < targetSecs) {s t : ℤ} (h : s ≤ t) :
    bucketStart s targetSecs ≤ bucketStart t targetSecs := by
  have hsecs := timestamp_mono h
  have hdiv := Int.ediv_le_ediv hpos hsecs
  have hs := Int.mul_ediv_add_emod (timestamp s) targetSecs
  have ht := Int.mul_ediv_add_emod (timestamp t) targetSecs
  have hmul := mul_le_mul_of_nonneg_left hdiv hpos.le
  exact fromTimestamp_le.mpr (by omega)

theorem bucketEpoch_eq_iff (hpos : 0 < targetSecs) {b : ℤ} (hb : targetSecs ∣ b)
    (c : CoinCandle) :
    bucketEpoch targetSecs c = b ↔
      fromTimestamp b ≤ c.ts ∧ c.ts < fromTimestamp (b + targetSecs) := by
  rw [← le_timestamp_iff, ← timestamp_lt_iff, bucketEpoch, timestamp_bucketStart]
  obtain ⟨k, rfl⟩ := hb
  constructor
  · intro heq
    have hlow := Int.emod_nonneg (timestamp c.ts) hpos.ne'
    have hhigh := Int.emod_lt_of_pos (timestamp c.ts) hpos
    omega
  · rintro ⟨hlow, hhigh⟩
    have hmod : timestamp c.ts % targetSecs = timestamp c.ts - targetSecs * k := by
      have hshift : timestamp c.ts = (timestamp c.ts - targetSecs * k) + targetSecs * k := by ring
      rw [hshift, Int.add_mul_emod_self_left, Int.emod_eq_of_lt (by omega) (by omega)]
      ring
    omega

theorem boundary_le_bucketEpoch_iff (hpos : 0 < targetSecs) {b : ℤ} (hb : targetSecs ∣ b)
    (c : CoinCandle) : b ≤ bucketEpoch targetSecs c ↔ fromTimestamp b ≤ c.ts := by
  have hdvd := dvd_bucketEpoch targetSecs c
  obtain ⟨hlow, hhigh⟩ := (bucketEpoch_eq_iff hpos hdvd c).mp rfl
  rw [← le_timestamp_iff] at hlow ⊢
  rw [← timestamp_lt_iff] at hhigh
  constructor
  · intro hbucket
    exact hbucket.trans hlow
  · intro hrow
    by_contra hnot
    have hgap := boundary_add_le hdvd hb (not_le.mp hnot)
    omega

theorem bucketEpoch_lt_boundary_iff (hpos : 0 < targetSecs) {b : ℤ} (hb : targetSecs ∣ b)
    (c : CoinCandle) : bucketEpoch targetSecs c < b ↔ c.ts < fromTimestamp b := by
  rw [← not_le, boundary_le_bucketEpoch_iff hpos hb, not_le]

end Buckets

section Rows

variable {rows rows' : List CoinCandle}

def bucketRows (targetSecs b : ℤ) (rows : List CoinCandle) : List CoinCandle :=
  (sortByTs rows).filter fun c => bucketEpoch targetSecs c = b

@[simp] theorem mem_bucketRows {targetSecs b : ℤ} {c : CoinCandle} :
    c ∈ bucketRows targetSecs b rows ↔ c ∈ rows ∧ bucketEpoch targetSecs c = b := by
  simp [bucketRows]

theorem bucketRows_congr {targetSecs b : ℤ} (h : DistinctTs rows) (h' : DistinctTs rows')
    (hmem : ∀ c, bucketEpoch targetSecs c = b → (c ∈ rows ↔ c ∈ rows')) :
    bucketRows targetSecs b rows = bucketRows targetSecs b rows' := by
  apply ((sortByTs_ascending h).filter _).ext ((sortByTs_ascending h').filter _)
  intro c
  simp only [List.mem_filter, mem_sortByTs, decide_eq_true_eq]
  constructor
  · rintro ⟨hc, hb⟩
    exact ⟨(hmem c hb).mp hc, hb⟩
  · rintro ⟨hc, hb⟩
    exact ⟨(hmem c hb).mpr hc, hb⟩

end Rows

def bucketGroup (targetSecs b : ℤ) (rows : List CoinCandle) : Option (Group ℤ CoinCandle) :=
  match bucketRows targetSecs b rows with
  | [] => none
  | first :: rest => some ⟨b, first, rest⟩

def bucketCandle (coinId vsCurrency : String) (targetSecs sourceSecs now : ℤ)
    (sourceIntervalLabel targetInterval : String) (b : ℤ) (rows : List CoinCandle) :
    Option CoinCandle :=
  ((bucketGroup targetSecs b rows).filter fun g => !isDropped targetSecs sourceSecs now g).map
    (foldBucket coinId vsCurrency targetInterval ("aggregated:" ++ sourceIntervalLabel))

theorem bucketGroup_eq_some_iff {targetSecs b : ℤ} {rows : List CoinCandle}
    {g : Group ℤ CoinCandle} :
    bucketGroup targetSecs b rows = some g ↔
      g.key = b ∧ g ∈ groupBy (bucketEpoch targetSecs) (sortByTs rows) := by
  rw [mem_groupBy_iff]
  unfold bucketGroup
  constructor
  · intro h
    split at h
    · cases h
    · next first rest hrows =>
      cases h
      exact ⟨rfl, hrows⟩
  · rintro ⟨rfl, hitems⟩
    have hrows : bucketRows targetSecs g.key rows = g.first :: g.rest := hitems
    rw [hrows]

section Series

variable {coinId vsCurrency : String} {targetSecs sourceSecs now : ℤ}
  {label targetInterval : String} {rows rows' : List CoinCandle} {b : ℤ} {c : CoinCandle}

theorem bucketCandle_eq_some_iff :
    bucketCandle coinId vsCurrency targetSecs sourceSecs now label targetInterval b rows = some c ↔
      ∃ g, bucketGroup targetSecs b rows = some g ∧
        isDropped targetSecs sourceSecs now g = false ∧
        foldBucket coinId vsCurrency targetInterval ("aggregated:" ++ label) g = c := by
  simp [bucketCandle, Option.filter_eq_some_iff, and_assoc]

theorem bucketCandle_ts
    (h : bucketCandle coinId vsCurrency targetSecs sourceSecs now label targetInterval b rows =
      some c) : c.ts = fromTimestamp b := by
  obtain ⟨g, hg, -, rfl⟩ := bucketCandle_eq_some_iff.mp h
  rw [← (bucketGroup_eq_some_iff.mp hg).1]
  rfl

theorem exists_row_of_bucketCandle
    (h : bucketCandle coinId vsCurrency targetSecs sourceSecs now label targetInterval b rows =
      some c) : ∃ row ∈ rows, bucketEpoch targetSecs row = b := by
  obtain ⟨g, hg, -, -⟩ := bucketCandle_eq_some_iff.mp h
  unfold bucketGroup at hg
  split at hg
  · cases hg
  · next first rest hrows =>
    have hfirst : first ∈ bucketRows targetSecs b rows := hrows ▸ List.mem_cons_self
    exact ⟨first, mem_bucketRows.mp hfirst⟩

theorem bucketCandle_congr
    (h : bucketRows targetSecs b rows = bucketRows targetSecs b rows') :
    bucketCandle coinId vsCurrency targetSecs sourceSecs now label targetInterval b rows =
      bucketCandle coinId vsCurrency targetSecs sourceSecs now label targetInterval b rows' := by
  rw [bucketCandle, bucketCandle, bucketGroup, bucketGroup, h]

/-- The candles of all buckets, for one coin and currency. -/
def emittedCandles (coinId vsCurrency : String) (targetSecs sourceSecs now : ℤ)
    (sourceIntervalLabel targetInterval : String) (rows : List CoinCandle) : List CoinCandle :=
  let kept := (groupBy (bucketEpoch targetSecs) (sortByTs rows)).filter
    fun g => !isDropped targetSecs sourceSecs now g
  sortByTsDesc (kept.map (foldBucket coinId vsCurrency targetInterval
    ("aggregated:" ++ sourceIntervalLabel)))

theorem aggregateCandles_eq_of_earliest {first : CoinCandle}
    (hfirst : (sortByTs rows).head? = some first) :
    aggregateCandles rows targetSecs sourceSecs now label targetInterval =
      emittedCandles first.coinId first.vsCurrency targetSecs sourceSecs now label targetInterval
        rows := by
  obtain ⟨rest, hsort⟩ := List.head?_eq_some_iff.mp hfirst
  rw [aggregateCandles, emittedCandles, hsort]

theorem sortByTs_eq_nil_iff : sortByTs rows = [] ↔ rows = [] := by
  rw [List.eq_nil_iff_forall_not_mem, List.eq_nil_iff_forall_not_mem]
  simp only [mem_sortByTs]

theorem aggregateCandles_eq (hseries : OfSeries coinId vsCurrency rows) :
    aggregateCandles rows targetSecs sourceSecs now label targetInterval =
      emittedCandles coinId vsCurrency targetSecs sourceSecs now label targetInterval rows := by
  cases hhead : (sortByTs rows).head? with
  | none =>
    obtain rfl := sortByTs_eq_nil_iff.mp (List.head?_eq_none_iff.mp hhead)
    rfl
  | some first =>
    obtain ⟨hcoin, hcurrency⟩ := hseries first (mem_sortByTs.mp (List.mem_of_mem_head? hhead))
    rw [aggregateCandles_eq_of_earliest hhead, hcoin, hcurrency]

theorem mem_emittedCandles_iff :
    c ∈ emittedCandles coinId vsCurrency targetSecs sourceSecs now label targetInterval rows ↔
      ∃ b, bucketCandle coinId vsCurrency targetSecs sourceSecs now label targetInterval b rows =
        some c := by
  rw [emittedCandles, mem_sortByTsDesc]
  simp only [List.mem_map, List.mem_filter, Bool.not_eq_true', bucketCandle_eq_some_iff,
    bucketGroup_eq_some_iff]
  constructor
  · rintro ⟨g, ⟨hg, hkeep⟩, hfold⟩
    exact ⟨g.key, g, ⟨rfl, hg⟩, hkeep, hfold⟩
  · rintro ⟨b, g, ⟨-, hg⟩, hkeep, hfold⟩
    exact ⟨g, ⟨hg, hkeep⟩, hfold⟩

theorem mem_aggregateCandles_iff (hseries : OfSeries coinId vsCurrency rows) :
    c ∈ aggregateCandles rows targetSecs sourceSecs now label targetInterval ↔
      ∃ b, bucketCandle coinId vsCurrency targetSecs sourceSecs now label targetInterval b rows =
        some c := by
  rw [aggregateCandles_eq hseries, mem_emittedCandles_iff]

theorem emittedCandles_descending (coinId vsCurrency : String) (targetSecs sourceSecs now : ℤ)
    (label targetInterval : String) (rows : List CoinCandle) :
    Ascending (fun c => OrderDual.toDual c.ts)
      (emittedCandles coinId vsCurrency targetSecs sourceSecs now label targetInterval rows) := by
  apply sortByTsDesc_ascending
  have hgroups := (groupBy_ascending (bucketEpoch targetSecs) (sortByTs rows)).filter
    fun g => !isDropped targetSecs sourceSecs now g
  have hascending : Ascending CoinCandle.ts (((groupBy (bucketEpoch targetSecs)
      (sortByTs rows)).filter fun g => !isDropped targetSecs sourceSecs now g).map
        (foldBucket coinId vsCurrency targetInterval ("aggregated:" ++ label))) :=
    hgroups.map fun g g' hlt => fromTimestamp_lt.mpr hlt
  unfold DistinctTs
  rw [List.Nodup, List.pairwise_map]
  exact hascending.imp fun hlt => ne_of_lt hlt

/-- The output is in strictly descending time order. -/
theorem aggregateCandles_descending (rows : List CoinCandle) (targetSecs sourceSecs now : ℤ)
    (label targetInterval : String) :
    Ascending (fun c => OrderDual.toDual c.ts)
      (aggregateCandles rows targetSecs sourceSecs now label targetInterval) := by
  cases hhead : (sortByTs rows).head? with
  | none =>
    obtain rfl := sortByTs_eq_nil_iff.mp (List.head?_eq_none_iff.mp hhead)
    exact List.Pairwise.nil
  | some first =>
    rw [aggregateCandles_eq_of_earliest hhead]
    exact emittedCandles_descending _ _ _ _ _ _ _ _

end Series
end CryptoCollector.Api

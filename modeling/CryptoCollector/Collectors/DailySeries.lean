import CryptoCollector.Collectors.CycleOverlay
import CryptoCollector.Db.Candles
import CryptoCollector.Models.Interval

/-!
# The daily series

The `(date, close)` pairs an overlay is computed from: the native `1d` rows, or
without any the last close of each day in the stored interval that reaches over
the longest span. A cutoff bounds the rows both queries read, not the spans.
-/

namespace CryptoCollector.Collectors
open Db Models Foundations DateTime

/-- The rows of an interval, up to the cutoff if there is one. -/
def candlesUpTo (t : CandleTable) (coinId vsCurrency interval : String) (asOf : Option ℤ) :
    List CoinCandle :=
  (t.series coinId vsCurrency interval).filter fun c =>
    asOf.all fun cutoff => c.ts ≤ storeTimestamptz cutoff

def candleDate (c : CoinCandle) : ℤ := NaiveDate.ofTimestamptz c.ts

/-- `SELECT ts::date, close`. -/
def dailyClose (c : CoinCandle) : DailyClose := ⟨candleDate c, c.close⟩

def nativeRows (t : CandleTable) (coinId vsCurrency : String) (asOf : Option ℤ) :
    List DailyClose :=
  (candlesUpTo t coinId vsCurrency "1d" asOf).map dailyClose

/-- The candidates of `select_widest_source_interval`: coverage, duration, name. -/
def sourceCandidates (candidates : List (String × ℤ)) (targetSecs : ℤ) : List (ℤ × ℤ × String) :=
  candidates.filterMap fun (name, coverageSecs) => do
    let secs ← (ApiInterval.fromStr name).map ApiInterval.secs
    if secs < targetSecs ∧ targetSecs % secs = 0 then some (coverageSecs, secs, name) else none

/-- The wider coverage, then the larger divisor. -/
def reachesFurther (a b : ℤ × ℤ × String) : Bool := b.1 < a.1 ∨ b.1 = a.1 ∧ b.2.1 < a.2.1

/-- `select_widest_source_interval`: `max_by_key` keeps the last of the greatest. -/
def selectWidestSourceInterval (candidates : List (String × ℤ)) (targetSecs : ℤ) :
    Option String :=
  (firstMin reachesFurther (sourceCandidates candidates targetSecs).reverse).map fun c => c.2.2

/-- The stored interval `aggregate_daily_from_finer` reads, whatever the cutoff. -/
def widestSource (t : CandleTable) (coinId vsCurrency : String) : Option String :=
  selectWidestSourceInterval
    ((t.intervalCoverage coinId vsCurrency).map fun (interval, minTs, maxTs) =>
      (interval, numSeconds (maxTs - minTs)))
    ApiInterval.d1.secs

/-- `DISTINCT ON (day) .. ORDER BY day, ts DESC`: the latest row of each day. -/
def lastOfDay (rows : List CoinCandle) : List CoinCandle :=
  (groupBy candleDate (sortByTsDesc rows)).map Group.first

def aggregateDailyFromFiner (t : CandleTable) (coinId vsCurrency : String) (asOf : Option ℤ) :
    List DailyClose :=
  match widestSource t coinId vsCurrency with
  | none => []
  | some sourceInterval =>
    (lastOfDay (candlesUpTo t coinId vsCurrency sourceInterval asOf)).map dailyClose

/-- `load_daily_series` may return `daily`. The native query has no `ORDER BY`,
so its rows come in any order. -/
def LoadsDailySeries (t : CandleTable) (coinId vsCurrency : String) (asOf : Option ℤ)
    (daily : List DailyClose) : Prop :=
  if nativeRows t coinId vsCurrency asOf = [] then
    daily = aggregateDailyFromFiner t coinId vsCurrency asOf
  else daily.Perm (nativeRows t coinId vsCurrency asOf)

instance (t : CandleTable) (coinId vsCurrency : String) (asOf : Option ℤ)
    (daily : List DailyClose) : Decidable (LoadsDailySeries t coinId vsCurrency asOf daily) :=
  inferInstanceAs (Decidable (if nativeRows t coinId vsCurrency asOf = [] then
    daily = aggregateDailyFromFiner t coinId vsCurrency asOf
    else daily.Perm (nativeRows t coinId vsCurrency asOf)))

section Rows

variable {t : CandleTable} {coinId vsCurrency interval : String} {asOf : Option ℤ}

theorem mem_candlesUpTo {c : CoinCandle} :
    c ∈ candlesUpTo t coinId vsCurrency interval asOf ↔
      c ∈ t.series coinId vsCurrency interval ∧
        ∀ cutoff ∈ asOf, c.ts ≤ storeTimestamptz cutoff := by
  cases asOf <;> simp [candlesUpTo]

/-- The rows of a day close it with the latest of them. -/
def ClosesDay (rows : List CoinCandle) (d : DailyClose) : Prop :=
  ∃ c ∈ rows, dailyClose c = d ∧ ∀ c' ∈ rows, candleDate c' = d.date → c'.ts ≤ c.ts

theorem mem_lastOfDay {rows : List CoinCandle} (h : DistinctTs rows) {c : CoinCandle} :
    c ∈ lastOfDay rows ↔
      c ∈ rows ∧ ∀ c' ∈ rows, candleDate c' = candleDate c → c'.ts ≤ c.ts := by
  have hfirst : ∀ g ∈ groupBy candleDate (sortByTsDesc rows), g.first ∈ rows ∧
      candleDate g.first = g.key ∧ ∀ c' ∈ rows, candleDate c' = g.key → c'.ts ≤ g.first.ts := by
    intro g hg
    obtain ⟨hmem, hdate⟩ := key_of_mem_items hg List.mem_cons_self
    refine ⟨mem_sortByTsDesc.mp hmem, hdate, ?_⟩
    intro c' hc' hdate'
    have hitems := mem_groupBy_iff.mp hg
    have hsorted := (sortByTsDesc_ascending h).filter fun c => candleDate c = g.key
    rw [hitems, Group.items, Ascending, List.pairwise_cons] at hsorted
    have hmem' : c' ∈ g.items := by
      rw [← hitems]
      exact List.mem_filter.mpr ⟨mem_sortByTsDesc.mpr hc', by simpa using hdate'⟩
    rcases List.mem_cons.mp hmem' with rfl | hrest
    · exact le_rfl
    · exact (OrderDual.toDual_lt_toDual.mp (hsorted.1 c' hrest)).le
  constructor
  · intro hc
    obtain ⟨g, hg, rfl⟩ := List.mem_map.mp hc
    obtain ⟨hmem, hdate, hlatest⟩ := hfirst g hg
    exact ⟨hmem, hdate ▸ hlatest⟩
  · rintro ⟨hc, hlatest⟩
    have hitem : c ∈ (groupBy candleDate (sortByTsDesc rows)).flatMap Group.items :=
      (flatMap_items_groupBy _ _).mem_iff.mpr (mem_sortByTsDesc.mpr hc)
    obtain ⟨g, hg, hcg⟩ := List.mem_flatMap.mp hitem
    obtain ⟨hmem, hdate, hfirstLatest⟩ := hfirst g hg
    have hkey := (key_of_mem_items hg hcg).2
    have hts : c.ts = g.first.ts :=
      le_antisymm (hfirstLatest c hc hkey) (hlatest g.first hmem (hdate.trans hkey.symm))
    rw [List.inj_on_of_nodup_map h hc hmem hts]
    exact List.mem_map_of_mem hg

theorem mem_lastOfDay_dailyClose {rows : List CoinCandle} (h : DistinctTs rows) {d : DailyClose} :
    d ∈ (lastOfDay rows).map dailyClose ↔ ClosesDay rows d := by
  rw [List.mem_map]
  constructor
  · rintro ⟨c, hc, rfl⟩
    obtain ⟨hmem, hlatest⟩ := (mem_lastOfDay h).mp hc
    exact ⟨c, hmem, rfl, hlatest⟩
  · rintro ⟨c, hmem, rfl, hlatest⟩
    exact ⟨c, (mem_lastOfDay h).mpr ⟨hmem, hlatest⟩, rfl⟩

theorem lastOfDay_ascending (rows : List CoinCandle) :
    Ascending DailyClose.date ((lastOfDay rows).map dailyClose) := by
  rw [lastOfDay, List.map_map, Ascending, List.pairwise_map]
  apply List.Pairwise.imp_of_mem _ (groupBy_ascending candleDate (sortByTsDesc rows))
  intro g g' hg hg' hlt
  have hdate := (key_of_mem_items hg List.mem_cons_self).2
  have hdate' := (key_of_mem_items hg' List.mem_cons_self).2
  rw [← hdate, ← hdate'] at hlt
  exact hlt

theorem candlesUpTo_distinctTs : DistinctTs (candlesUpTo t coinId vsCurrency interval asOf) :=
  CandleTable.series_distinctTs.sublist List.filter_sublist

def sourceCandles (t : CandleTable) (coinId vsCurrency : String) (asOf : Option ℤ) :
    List CoinCandle :=
  (widestSource t coinId vsCurrency).elim [] fun source =>
    candlesUpTo t coinId vsCurrency source asOf

theorem aggregateDaily_eq : aggregateDailyFromFiner t coinId vsCurrency asOf =
    (lastOfDay (sourceCandles t coinId vsCurrency asOf)).map dailyClose := by
  unfold aggregateDailyFromFiner sourceCandles
  cases widestSource t coinId vsCurrency with
  | none => rfl
  | some source => rfl

theorem sourceCandles_distinctTs : DistinctTs (sourceCandles t coinId vsCurrency asOf) := by
  unfold sourceCandles
  cases widestSource t coinId vsCurrency with
  | none => exact List.nodup_nil
  | some source => exact candlesUpTo_distinctTs

theorem aggregateDaily_dates_nodup :
    ((aggregateDailyFromFiner t coinId vsCurrency asOf).map DailyClose.date).Nodup := by
  rw [aggregateDaily_eq]
  exact (List.pairwise_map.mpr (lastOfDay_ascending _)).imp ne_of_lt

/-- The aggregation returns the day closes of its source. -/
theorem mem_aggregateDaily {d : DailyClose} :
    d ∈ aggregateDailyFromFiner t coinId vsCurrency asOf ↔
      ClosesDay (sourceCandles t coinId vsCurrency asOf) d := by
  rw [aggregateDaily_eq, mem_lastOfDay_dailyClose sourceCandles_distinctTs]

theorem candlesUpTo_newest {cutoff : ℤ}
    (h : ∀ c ∈ t.rows, c.coinId = coinId → c.vsCurrency = vsCurrency →
      c.ts ≤ storeTimestamptz cutoff) :
    candlesUpTo t coinId vsCurrency interval (some cutoff) =
      candlesUpTo t coinId vsCurrency interval none := by
  unfold candlesUpTo
  apply List.filter_congr
  intro c hc
  obtain ⟨hrow, hcoin, hcurrency, -⟩ := CandleTable.mem_series.mp hc
  simpa using h c hrow hcoin hcurrency

theorem loadsDailySeries_newest {cutoff : ℤ} {daily : List DailyClose}
    (h : ∀ c ∈ t.rows, c.coinId = coinId → c.vsCurrency = vsCurrency →
      c.ts ≤ storeTimestamptz cutoff) :
    LoadsDailySeries t coinId vsCurrency (some cutoff) daily ↔
      LoadsDailySeries t coinId vsCurrency none daily := by
  unfold LoadsDailySeries nativeRows aggregateDailyFromFiner
  rw [candlesUpTo_newest h]
  cases widestSource t coinId vsCurrency with
  | none => exact Iff.rfl
  | some source =>
    dsimp only
    rw [candlesUpTo_newest h]

/-- Two reads of the series differ in the order of the rows at most. -/
theorem LoadsDailySeries.perm {daily daily' : List DailyClose}
    (h : LoadsDailySeries t coinId vsCurrency asOf daily)
    (h' : LoadsDailySeries t coinId vsCurrency asOf daily') : daily.Perm daily' := by
  unfold LoadsDailySeries at h h'
  split_ifs at h h'
  · rw [h, h']
  · exact h.trans h'.symm

theorem LoadsDailySeries.dates_nodup {daily : List DailyClose}
    (h : LoadsDailySeries t coinId vsCurrency asOf daily)
    (hnative : ((nativeRows t coinId vsCurrency asOf).map DailyClose.date).Nodup) :
    (daily.map DailyClose.date).Nodup := by
  unfold LoadsDailySeries at h
  split_ifs at h
  · rw [h]
    exact aggregateDaily_dates_nodup
  · exact (h.map DailyClose.date).nodup_iff.mpr hnative

end Rows
end CryptoCollector.Collectors

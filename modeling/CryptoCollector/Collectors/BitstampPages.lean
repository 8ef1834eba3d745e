import CryptoCollector.Collectors.AdapterWindows

/-!
# The front of a Bitstamp page

The window of a request is closed at both ends, a page of steps wide. From a start
on the grid it has room for one candle more than the page, and the candle that is
left out is the one at the start.
-/

namespace CryptoCollector.Collectors
open Foundations Models Providers DateTime

/-- The step a Bitstamp request is answered with, as a duration. -/
def bitstampStride (secs : ℤ) : ℤ := fromTimestamp (snapToBitstampStep secs).1

/-- The range reaches a page of steps on, and the service has a candle at its start and
at each of these steps. -/
def FrontCrowded (up : Upstream) (market : MarketQuery) (secs stop start : ℤ) : Prop :=
  start + 1000 * bitstampStride secs ≤ stop ∧
    ∀ k : ℕ, k ≤ 1000 → ∃ c ∈ rangeCandles up market secs .bitstamp,
      c.ts = start + k * bitstampStride secs

variable {up : Upstream} {market : MarketQuery} {secs stop start : ℤ} {c : OhlcCandle}

theorem bitstampStride_pos (secs : ℤ) : 0 < bitstampStride secs := by
  have hstep := bitstampStep_pos secs
  unfold bitstampStride fromTimestamp
  omega

def laterSteps (secs start : ℤ) : List ℤ :=
  (List.range 1000).map fun k : ℕ => start + (k + 1) * bitstampStride secs

theorem laterSteps_nodup (secs start : ℤ) : (laterSteps secs start).Nodup := by
  apply List.Nodup.map _ List.nodup_range
  intro k k' heq
  have hsame : ((k : ℤ) + 1) * bitstampStride secs = (k' + 1) * bitstampStride secs :=
    add_left_cancel heq
  have hinj := mul_right_cancel₀ (bitstampStride_pos secs).ne' hsame
  omega

/-- The candles of the window after the one at its start. -/
def laterCandles (up : Upstream) (market : MarketQuery) (secs stop start : ℤ) :
    List OhlcCandle :=
  (bitstampWindow up market secs stop start).filter fun d => start < d.ts

theorem laterCandles_nodup :
    ((laterCandles up market secs stop start).map OhlcCandle.ts).Nodup := by
  have hascending : Ascending OhlcCandle.ts (laterCandles up market secs stop start) :=
    ((rangeCandles_ascending .bitstamp).filter _).filter _
  exact List.pairwise_map.mpr (hascending.imp ne_of_lt)

theorem mem_laterCandles :
    c ∈ laterCandles up market secs stop start ↔ c ∈ rangeCandles up market secs .bitstamp ∧
      start < c.ts ∧ c.ts ≤ bitstampPageEnd secs stop start := by
  have hfloor := fromTimestamp_timestamp_le start
  rw [laterCandles, List.mem_filter, mem_bitstampWindow, decide_eq_true_eq]
  constructor
  · rintro ⟨⟨hc, -, hend⟩, hlow⟩
    exact ⟨hc, hlow, hend⟩
  · rintro ⟨hc, hlow, hend⟩
    exact ⟨⟨hc, by omega, hend⟩, hlow⟩

theorem mem_page_iff (hc : c ∈ rangeCandles up market secs .bitstamp) (hstart : c.ts = start) :
    c ∈ bitstampFetchOhlcRange up ⟨market, start, stop, secs⟩ ↔
      (laterCandles up market secs stop start).length < 1000 := by
  have hascending : Ascending OhlcCandle.ts (bitstampWindow up market secs stop start) :=
    (rangeCandles_ascending .bitstamp).filter _
  have hend : start ≤ bitstampPageEnd secs stop start := by
    have hseconds := bitstamp_seconds hc
    rw [hstart] at hseconds
    rw [bitstampPageEnd, pageEndSecs, ← hseconds, fromTimestamp_le, timestamp_fromTimestamp]
    exact le_max_right _ _
  have hwindow : c ∈ bitstampWindow up market secs stop start :=
    mem_bitstampWindow.mpr ⟨hc, hstart ▸ fromTimestamp_timestamp_le _, hstart ▸ hend⟩
  rw [bitstampFetchOhlcRange_eq, hascending.mem_drop_iff hwindow, laterCandles,
    List.countP_eq_length_filter, hstart]

theorem front_lost (h : FrontCrowded up market secs stop start)
    (hc : c ∈ rangeCandles up market secs .bitstamp) (hstart : c.ts = start) :
    c ∉ bitstampFetchOhlcRange up ⟨market, start, stop, secs⟩ := by
  obtain ⟨hstop, hcrowded⟩ := h
  have hseconds : fromTimestamp (timestamp start) = start := hstart ▸ bitstamp_seconds hc
  have hend : bitstampPageEnd secs stop start = start + 1000 * bitstampStride secs := by
    have hstop' : timestamp start + (snapToBitstampStep secs).1 * 1000 ≤ timestamp stop := by
      rw [le_timestamp_iff]
      unfold bitstampStride fromTimestamp at *
      omega
    have hstep := bitstampStep_pos secs
    rw [bitstampPageEnd, pageEndSecs, bitstampPageLimit, bitstampStride]
    unfold fromTimestamp at *
    push_cast
    omega
  have hsub : laterSteps secs start ⊆
      (laterCandles up market secs stop start).map OhlcCandle.ts := by
    intro ts hts
    obtain ⟨k, hk, rfl⟩ := List.mem_map.mp hts
    rw [List.mem_range] at hk
    obtain ⟨d, hd, hdts⟩ := hcrowded (k + 1) (by omega)
    push_cast at hdts
    have hpos := bitstampStride_pos secs
    have hlow : 0 < ((k : ℤ) + 1) * bitstampStride secs := by positivity
    have hhigh : ((k : ℤ) + 1) * bitstampStride secs ≤ 1000 * bitstampStride secs :=
      mul_le_mul_of_nonneg_right (by omega) hpos.le
    exact List.mem_map.mpr ⟨d, mem_laterCandles.mpr ⟨hd, by omega, by omega⟩, hdts⟩
  have hlength := (List.subperm_of_subset (laterSteps_nodup secs start) hsub).length_le
  simp only [laterSteps, List.length_map, List.length_range] at hlength
  rw [mem_page_iff hc hstart]
  omega

theorem ts_eq_of_lost (hc : c ∈ rangeCandles up market secs .bitstamp) (hlow : start ≤ c.ts)
    (hhigh : c.ts ≤ bitstampPageEnd secs stop start)
    (hlost : c ∉ bitstampFetchOhlcRange up ⟨market, start, stop, secs⟩) : c.ts = start := by
  have hascending : Ascending OhlcCandle.ts (bitstampWindow up market secs stop start) :=
    (rangeCandles_ascending .bitstamp).filter _
  have hfloor := fromTimestamp_timestamp_le start
  by_contra hne
  have hafter : fromTimestamp (timestamp start) < c.ts := by omega
  have hwindow : c ∈ bitstampWindow up market secs stop start :=
    mem_bitstampWindow.mpr ⟨hc, hafter.le, hhigh⟩
  rw [bitstampFetchOhlcRange_eq, hascending.mem_drop_iff hwindow] at hlost
  have hfollow : (bitstampWindow up market secs stop start).countP (fun d => c.ts < d.ts) ≤
      (rangeCandles up market secs .bitstamp).countP fun d =>
        c.ts < d.ts ∧ d.ts ≤ bitstampPageEnd secs stop start := by
    rw [bitstampWindow, List.countP_filter]
    apply List.countP_mono_left
    intro d _
    simp only [Bool.and_eq_true, decide_eq_true_eq]
    exact fun h => ⟨h.1, h.2.2⟩
  exact hlost (hfollow.trans_lt (bitstamp_countP_lt hc hafter))

theorem laterCandles_subset (hc : c ∈ rangeCandles up market secs .bitstamp)
    (hstart : c.ts = start) :
    (laterCandles up market secs stop start).map OhlcCandle.ts ⊆ laterSteps secs start := by
  have hpos := bitstampStride_pos secs
  have hend : bitstampPageEnd secs stop start ≤ start + 1000 * bitstampStride secs := by
    have hstep := bitstampStep_pos secs
    have hfloor := fromTimestamp_timestamp_le start
    rw [bitstampPageEnd, pageEndSecs, bitstampPageLimit, bitstampStride]
    unfold fromTimestamp at *
    push_cast
    omega
  intro ts hts
  obtain ⟨d, hd, rfl⟩ := List.mem_map.mp hts
  obtain ⟨hmem, hlater, hdend⟩ := mem_laterCandles.mp hd
  obtain ⟨m, hm⟩ := dvd_sub (bitstamp_grid hmem) (bitstamp_grid hc)
  rw [← bitstampStride, hstart, mul_comm] at hm
  have hmlow : 0 < m := by nlinarith
  have hmhigh : m ≤ 1000 := by nlinarith
  refine List.mem_map.mpr ⟨(m - 1).toNat, List.mem_range.mpr (by omega), ?_⟩
  have hcast : (((m - 1).toNat : ℕ) : ℤ) + 1 = m := by omega
  rw [hcast]
  omega

theorem laterSteps_filled (hc : c ∈ rangeCandles up market secs .bitstamp) (hstart : c.ts = start)
    (hlost : c ∉ bitstampFetchOhlcRange up ⟨market, start, stop, secs⟩) {k : ℕ} (hk : k < 1000) :
    ∃ d ∈ laterCandles up market secs stop start, d.ts = start + (k + 1) * bitstampStride secs := by
  rw [mem_page_iff hc hstart, not_lt] at hlost
  have hfilled : laterSteps secs start ⊆
      (laterCandles up market secs stop start).map OhlcCandle.ts := by
    apply (slots_length_le_iff (laterSteps_nodup secs start) laterCandles_nodup
      (laterCandles_subset hc hstart)).mp
    simpa [laterSteps] using hlost
  exact List.mem_map.mp (hfilled (List.mem_map.mpr ⟨k, List.mem_range.mpr hk, rfl⟩))

/-- A candle that the window loses is the one at a crowded start. -/
theorem crowded_of_lost (hc : c ∈ rangeCandles up market secs .bitstamp) (hlow : start ≤ c.ts)
    (hhigh : c.ts ≤ bitstampPageEnd secs stop start)
    (hlost : c ∉ bitstampFetchOhlcRange up ⟨market, start, stop, secs⟩) :
    FrontCrowded up market secs stop start := by
  have hstart := ts_eq_of_lost hc hlow hhigh hlost
  constructor
  · obtain ⟨d, hd, hdts⟩ := laterSteps_filled hc hstart hlost (by norm_num : 999 < 1000)
    have hdend := (mem_laterCandles.mp hd).2.2
    have hstop := fromTimestamp_timestamp_le stop
    have hfloor := fromTimestamp_timestamp_le start
    have hpos := bitstampStride_pos secs
    rw [bitstampPageEnd, pageEndSecs, bitstampPageLimit] at hdend
    unfold bitstampStride fromTimestamp at *
    push_cast at hdend hdts
    omega
  · intro k hk
    rcases Nat.eq_zero_or_pos k with rfl | hkpos
    · exact ⟨c, hc, by simp [hstart]⟩
    · obtain ⟨d, hd, hdts⟩ := laterSteps_filled hc hstart hlost (by omega : k - 1 < 1000)
      refine ⟨d, (mem_laterCandles.mp hd).1, ?_⟩
      rw [hdts]
      push_cast [Nat.cast_sub hkpos]
      ring

/-- `fetch_ohlc_range` of the Bitstamp adapter: every candle of the window from the start
on is on the page, unless the start is crowded. -/
theorem bitstampPage_complete_iff (up : Upstream) (market : MarketQuery) (start stop secs : ℤ) :
    (∀ c ∈ rangeCandles up market secs .bitstamp, start ≤ c.ts →
      c.ts ≤ bitstampPageEnd secs stop start →
        c ∈ bitstampFetchOhlcRange up ⟨market, start, stop, secs⟩) ↔
      ¬FrontCrowded up market secs stop start := by
  constructor
  · intro hcomplete hcrowded
    obtain ⟨c, hc, hts⟩ := hcrowded.2 0 (by norm_num)
    have hstart : c.ts = start := by simpa using hts
    apply front_lost hcrowded hc hstart
    apply hcomplete c hc hstart.ge
    have hseconds : fromTimestamp (timestamp start) = start := hstart ▸ bitstamp_seconds hc
    rw [hstart, bitstampPageEnd, pageEndSecs]
    nth_rewrite 1 [← hseconds]
    exact fromTimestamp_le.mpr (le_max_right _ _)
  · intro hnot c hc hlow hhigh
    by_contra hlost
    exact hnot (crowded_of_lost hc hlow hhigh hlost)

/-- A row of a minute of 2024-01-01, and of the hours after it. -/
def minuteRow (k : ℕ) : VolumeRow := ⟨⟨1704067200 + k * 60, 42000, 42100, 41900, 42050⟩, 3⟩

theorem noRows_ascending : Ascending (fun row : VolumeRow => row.time) [] := List.Pairwise.nil

theorem noItems_ascending : Ascending WireRow.time [] := List.Pairwise.nil

/-- A service with a candle for every minute of the day. -/
def everyMinute : Upstream where
  klines _ _ := []
  bitstampRows _ step := if step = 60 then (List.range 1440).map minuteRow else []
  coingeckoItems _ _ _ := []
  klines_ascending _ _ := noRows_ascending
  bitstampRows_ascending _ step := by
    split_ifs
    · apply List.pairwise_map.mpr
      apply List.pairwise_lt_range.imp
      intro k k' hlt
      simp only [minuteRow]
      omega
    · exact List.Pairwise.nil
  bitstampRows_grid _ step row hrow := by
    split_ifs at hrow with hstep
    · obtain ⟨k, -, rfl⟩ := List.mem_map.mp hrow
      simp only [minuteRow, hstep]
      omega
    · cases hrow
  coingeckoItems_ascending _ _ _ := noItems_ascending

def bitcoinMarket : MarketQuery := .coinKeyed "bitcoin" "btc" "USDT" "usd"

theorem mem_everyMinute {k : ℕ} (hk : k < 1440) :
    normaliseRow bitcoinMarket "1m" (minuteRow k) ∈
      rangeCandles everyMinute bitcoinMarket 60 .bitstamp := by
  have hsnap : snapToBitstampStep 60 = (60, "1m") := by decide +kernel
  have hrow : minuteRow k ∈ everyMinute.bitstampRows (pairSymbol bitcoinMarket) 60 := by
    simp only [everyMinute, if_true]
    exact List.mem_map.mpr ⟨k, List.mem_range.mpr hk, rfl⟩
  simp only [rangeCandles, hsnap]
  exact List.mem_map.mpr ⟨minuteRow k, hrow, rfl⟩

/-- A backfill of the day by minutes loses its first candle. -/
theorem bitstampPage_loses_midnight :
    ¬∀ c ∈ rangeCandles everyMinute bitcoinMarket 60 .bitstamp,
      fromTimestamp 1704067200 ≤ c.ts →
        c.ts ≤ bitstampPageEnd 60 (fromTimestamp 1704153600) (fromTimestamp 1704067200) →
          c ∈ bitstampFetchOhlcRange everyMinute
            ⟨bitcoinMarket, fromTimestamp 1704067200, fromTimestamp 1704153600, 60⟩ := by
  intro hcomplete
  have hstride : bitstampStride 60 = fromTimestamp 60 := by decide +kernel
  have hcrowded : FrontCrowded everyMinute bitcoinMarket 60 (fromTimestamp 1704153600)
      (fromTimestamp 1704067200) := by
    constructor
    · rw [hstride]
      decide
    · intro k hk
      refine ⟨_, mem_everyMinute (by omega : k < 1440), ?_⟩
      simp only [normaliseRow, minuteRow, hstride, fromTimestamp]
      omega
  have hmidnight := mem_everyMinute (by norm_num : 0 < 1440)
  apply front_lost hcrowded hmidnight (by decide)
  exact hcomplete _ hmidnight (by decide) (by decide)

end CryptoCollector.Collectors

import CryptoCollector.Collectors.Backfill
import CryptoCollector.Foundations.ForwardWalk
import CryptoCollector.Providers.Adapters

/-!
# What a page of an adapter holds

A page of a range adapter, cut to the range, against all the candles its service
has at the snapped interval: which of them the request's window lets through.
-/

namespace CryptoCollector.Collectors
open Foundations Models Providers DateTime

/-- All the candles the service of `p` has at the interval `secs` snaps to. -/
def rangeCandles (up : Upstream) (market : MarketQuery) (secs : ℤ) : InTree → List OhlcCandle
  | .binance =>
    let interval := (secsToKlineInterval secs).2
    (up.klines (tickerSymbol market) interval).map (normaliseKline market interval)
  | .bitstamp =>
    let snapped := snapToBitstampStep secs
    (up.bitstampRows (pairSymbol market) snapped.1).map (normaliseRow market snapped.2)
  | .coinGecko _ =>
    let snapped := coingeckoRangeSnapInterval secs
    match market.coinId with
    | none => []
    | some coinId =>
      (up.coingeckoItems coinId market.vsCurrency snapped.1).map
        (normaliseOhlcItem market snapped.2)
  | .coinbase => []
  | .kraken => []

/-- A page from `start`, cut to the range: empty when the call fails. -/
def keptPage (up : Upstream) (market : MarketQuery) (secs stop : ℤ) (p : InTree) (start : ℤ) :
    List OhlcCandle :=
  match InTree.fetchOhlcRange up p ⟨market, start, stop, secs⟩ with
  | .ok candles => filterToRange (some start) (some stop) candles
  | .error _ => []

def bitstampPageEnd (secs stop start : ℤ) : ℤ :=
  fromTimestamp (pageEndSecs (timestamp start) (timestamp stop) (snapToBitstampStep secs).1
    bitstampPageLimit)

def coingeckoPageEnd (secs stop start : ℤ) : ℤ :=
  truncateToMinute (min stop (start + coingeckoRangeMaxSpan (coingeckoRangeSnapInterval secs).1))

/-- The window of a request from `start` has the candle: Binance's always does;
Bitstamp's ends 1000 steps on and loses a candle at `start` itself when 1000 more
follow it; CoinGecko's ends 31 or 180 days on, cut to the minute. -/
def InWindow (up : Upstream) (market : MarketQuery) (secs stop : ℤ) (p : InTree) (start : ℤ)
    (candle : OhlcCandle) : Prop :=
  match p with
  | .binance => True
  | .bitstamp =>
    candle.ts ≤ bitstampPageEnd secs stop start ∧ (candle.ts = start →
      ((rangeCandles up market secs .bitstamp).countP fun c =>
        candle.ts < c.ts ∧ c.ts ≤ bitstampPageEnd secs stop start) < 1000)
  | .coinGecko _ =>
    candle.ts < coingeckoPageEnd secs stop start
  | .coinbase => False
  | .kraken => False

variable {up : Upstream} {market : MarketQuery} {secs stop start : ℤ}

theorem mem_filterToRange {candles : List OhlcCandle} {c : OhlcCandle} :
    c ∈ filterToRange (some start) (some stop) candles ↔
      c ∈ candles ∧ start ≤ c.ts ∧ c.ts < stop := by
  simp [filterToRange]

theorem rangeCandles_ascending (p : InTree) :
    Ascending OhlcCandle.ts (rangeCandles up market secs p) := by
  cases p with
  | binance =>
    apply (up.klines_ascending _ _).map
    intro x y hlt
    simp only [normaliseKline, fromTimestampMillis]
    omega
  | bitstamp =>
    apply (up.bitstampRows_ascending _ _).map
    intro x y hlt
    simp only [normaliseRow, fromTimestamp]
    omega
  | coinGecko tier =>
    simp only [rangeCandles]
    split
    · exact List.Pairwise.nil
    · apply (up.coingeckoItems_ascending _ _ _).map
      intro x y hlt
      simp only [normaliseOhlcItem, fromTimestampMillis]
      omega
  | coinbase => exact List.Pairwise.nil
  | kraken => exact List.Pairwise.nil

section Binance

def binanceWindow (up : Upstream) (market : MarketQuery) (secs stop start : ℤ) :
    List OhlcCandle :=
  (rangeCandles up market secs .binance).filter fun c =>
    fromTimestampMillis (timestampMillis start) ≤ c.ts ∧
      c.ts ≤ fromTimestampMillis (timestampMillis stop)

theorem binanceFetchOhlcRange_eq :
    binanceFetchOhlcRange up ⟨market, start, stop, secs⟩ =
      (binanceWindow up market secs stop start).take 1000 := by
  simp only [binanceFetchOhlcRange, Upstream.fetchKlinesRange, binanceWindow, rangeCandles,
    List.filter_map, List.map_take]
  apply congrArg (List.take 1000)
  apply congrArg (List.map _)
  apply List.filter_congr
  intro row _
  apply decide_eq_decide.mpr
  simp only [normaliseKline, fromTimestampMillis]
  omega

theorem mem_binanceWindow {c : OhlcCandle} :
    c ∈ binanceWindow up market secs stop start ↔ c ∈ rangeCandles up market secs .binance ∧
      fromTimestampMillis (timestampMillis start) ≤ c.ts ∧
        c.ts ≤ fromTimestampMillis (timestampMillis stop) := by
  simp [binanceWindow]

theorem binance_millis {c : OhlcCandle} (hc : c ∈ rangeCandles up market secs .binance) :
    fromTimestampMillis (timestampMillis c.ts) = c.ts := by
  obtain ⟨row, -, rfl⟩ := List.mem_map.mp hc
  simp only [normaliseKline, fromTimestampMillis, timestampMillis]
  omega

theorem mem_keptPage_binance {c : OhlcCandle} (hc : c ∈ rangeCandles up market secs .binance) :
    c ∈ keptPage up market secs stop .binance start ↔ start ≤ c.ts ∧ c.ts < stop ∧
      ((binanceWindow up market secs stop start).countP fun d => d.ts < c.ts) < 1000 := by
  have hascending : Ascending OhlcCandle.ts (binanceWindow up market secs stop start) :=
    (rangeCandles_ascending .binance).filter _
  simp only [keptPage, InTree.fetchOhlcRange, mem_filterToRange, binanceFetchOhlcRange_eq]
  have hmillis := binance_millis hc
  have hwindow : start ≤ c.ts → c.ts < stop → c ∈ binanceWindow up market secs stop start := by
    intro hlow hhigh
    rw [mem_binanceWindow]
    simp only [fromTimestampMillis, timestampMillis] at hmillis ⊢
    exact ⟨hc, by omega, by omega⟩
  constructor
  · rintro ⟨htake, hlow, hhigh⟩
    exact ⟨hlow, hhigh, (hascending.mem_take_iff (hwindow hlow hhigh) 1000).mp htake⟩
  · rintro ⟨hlow, hhigh, hcount⟩
    exact ⟨(hascending.mem_take_iff (hwindow hlow hhigh) 1000).mpr hcount, hlow, hhigh⟩

theorem mem_rangeCandles_of_mem_keptPage_binance {c : OhlcCandle}
    (h : c ∈ keptPage up market secs stop .binance start) :
    c ∈ rangeCandles up market secs .binance := by
  simp only [keptPage, InTree.fetchOhlcRange, mem_filterToRange, binanceFetchOhlcRange_eq] at h
  exact (mem_binanceWindow.mp (List.mem_of_mem_take h.1)).1

theorem binanceWindow_countP (p : OhlcCandle → Bool) :
    (binanceWindow up market secs stop start).countP p =
      (rangeCandles up market secs .binance).countP fun d =>
        p d && (fromTimestampMillis (timestampMillis start) ≤ d.ts ∧
          d.ts ≤ fromTimestampMillis (timestampMillis stop) : Bool) :=
  List.countP_filter

end Binance

section Bitstamp

def bitstampWindow (up : Upstream) (market : MarketQuery) (secs stop start : ℤ) :
    List OhlcCandle :=
  (rangeCandles up market secs .bitstamp).filter fun c =>
    fromTimestamp (timestamp start) ≤ c.ts ∧ c.ts ≤ bitstampPageEnd secs stop start

theorem mem_bitstampWindow {c : OhlcCandle} :
    c ∈ bitstampWindow up market secs stop start ↔ c ∈ rangeCandles up market secs .bitstamp ∧
      fromTimestamp (timestamp start) ≤ c.ts ∧ c.ts ≤ bitstampPageEnd secs stop start := by
  simp [bitstampWindow]

theorem bitstampFetchOhlcRange_eq :
    bitstampFetchOhlcRange up ⟨market, start, stop, secs⟩ =
      (bitstampWindow up market secs stop start).drop
        ((bitstampWindow up market secs stop start).length - 1000) := by
  have hwindow : bitstampWindow up market secs stop start =
      ((up.bitstampRows (pairSymbol market) (snapToBitstampStep secs).1).filter fun row =>
        timestamp start ≤ row.time ∧ row.time ≤ pageEndSecs (timestamp start) (timestamp stop)
          (snapToBitstampStep secs).1 bitstampPageLimit).map
            (normaliseRow market (snapToBitstampStep secs).2) := by
    simp only [bitstampWindow, rangeCandles, List.filter_map]
    apply congrArg (List.map _)
    apply List.filter_congr
    intro row _
    apply decide_eq_decide.mpr
    simp only [normaliseRow, bitstampPageEnd, fromTimestamp_le]
  rw [hwindow, List.length_map, ← List.map_drop]
  rfl

theorem bitstampStep_pos (secs : ℤ) : 0 < (snapToBitstampStep secs).1 := by
  unfold snapToBitstampStep nearest
  cases hstep : bitstampSteps.argmin fun entry => (max secs 1 - entry.1).natAbs with
  | none => decide
  | some entry =>
    have hall : ∀ entry ∈ bitstampSteps, 0 < entry.1 := by decide
    exact hall entry (List.argmin_mem hstep)

theorem bitstamp_grid {c : OhlcCandle} (hc : c ∈ rangeCandles up market secs .bitstamp) :
    fromTimestamp (snapToBitstampStep secs).1 ∣ c.ts := by
  obtain ⟨row, hrow, rfl⟩ := List.mem_map.mp hc
  exact Int.mul_dvd_mul_right _ (up.bitstampRows_grid _ _ row hrow)

theorem bitstamp_seconds {c : OhlcCandle} (hc : c ∈ rangeCandles up market secs .bitstamp) :
    fromTimestamp (timestamp c.ts) = c.ts := by
  obtain ⟨row, -, rfl⟩ := List.mem_map.mp hc
  simp [normaliseRow]

theorem bitstamp_countP_lt {c : OhlcCandle} (hc : c ∈ rangeCandles up market secs .bitstamp)
    (hlow : fromTimestamp (timestamp start) < c.ts) :
    ((rangeCandles up market secs .bitstamp).countP fun d =>
      c.ts < d.ts ∧ d.ts ≤ bitstampPageEnd secs stop start) < 1000 := by
  set g := fromTimestamp (snapToBitstampStep secs).1 with hg
  have hgpos : 0 < g := by
    have hstep := bitstampStep_pos secs
    unfold fromTimestamp at hg
    omega
  rw [List.countP_eq_length_filter]
  set later := (rangeCandles up market secs .bitstamp).filter fun d =>
    c.ts < d.ts ∧ d.ts ≤ bitstampPageEnd secs stop start with hlater
  have hmem : ∀ d ∈ later, g ∣ d.ts ∧ c.ts < d.ts ∧ d.ts ≤ bitstampPageEnd secs stop start := by
    intro d hd
    simp only [hlater, List.mem_filter, decide_eq_true_eq] at hd
    exact ⟨bitstamp_grid hd.1, hd.2⟩
  by_cases hle : c.ts ≤ bitstampPageEnd secs stop start
  · have hascending : Ascending OhlcCandle.ts later := (rangeCandles_ascending .bitstamp).filter _
    have hlength := hascending.length_mul_le (bitstamp_grid hc) hle hmem
    have hend : bitstampPageEnd secs stop start ≤ fromTimestamp (timestamp start) + 1000 * g := by
      have hstep := bitstampStep_pos secs
      simp only [bitstampPageEnd, pageEndSecs, bitstampPageLimit, hg, fromTimestamp]
      push_cast
      omega
    have hlt : (later.length : ℤ) * g < 1000 * g := by linarith only [hlength, hend, hlow]
    exact_mod_cast lt_of_mul_lt_mul_right hlt hgpos.le
  · have hnone : later = [] := by
      rw [List.eq_nil_iff_forall_not_mem]
      intro d hd
      have hrange := hmem d hd
      omega
    simp [hnone]

theorem mem_keptPage_bitstamp {c : OhlcCandle} (hc : c ∈ rangeCandles up market secs .bitstamp) :
    c ∈ keptPage up market secs stop .bitstamp start ↔
      start ≤ c.ts ∧ c.ts < stop ∧ InWindow up market secs stop .bitstamp start c := by
  have hascending : Ascending OhlcCandle.ts (bitstampWindow up market secs stop start) :=
    (rangeCandles_ascending .bitstamp).filter _
  simp only [keptPage, InTree.fetchOhlcRange, mem_filterToRange, bitstampFetchOhlcRange_eq,
    InWindow]
  have hfloor := fromTimestamp_timestamp_le start
  have hcount : start ≤ c.ts → (bitstampWindow up market secs stop start).countP
      (fun d => c.ts < d.ts) = (rangeCandles up market secs .bitstamp).countP fun d =>
        c.ts < d.ts ∧ d.ts ≤ bitstampPageEnd secs stop start := by
    intro hlow
    rw [bitstampWindow, List.countP_filter]
    apply List.countP_congr
    intro d _
    simp only [Bool.and_eq_true, decide_eq_true_eq]
    constructor
    · exact fun h => ⟨h.1, h.2.2⟩
    · exact fun h => ⟨h.1, by omega, h.2⟩
  constructor
  · rintro ⟨hdrop, hlow, hhigh⟩
    have hwindow := List.mem_of_mem_drop hdrop
    refine ⟨hlow, hhigh, (mem_bitstampWindow.mp hwindow).2.2, fun _ => ?_⟩
    rw [← hcount hlow]
    exact (hascending.mem_drop_iff hwindow 1000).mp hdrop
  · rintro ⟨hlow, hhigh, hend, hfront⟩
    have hwindow : c ∈ bitstampWindow up market secs stop start :=
      mem_bitstampWindow.mpr ⟨hc, hfloor.trans hlow, hend⟩
    refine ⟨(hascending.mem_drop_iff hwindow 1000).mpr ?_, hlow, hhigh⟩
    rw [hcount hlow]
    rcases hlow.lt_or_eq with hlt | heq
    · exact bitstamp_countP_lt hc (lt_of_le_of_lt hfloor hlt)
    · exact hfront heq.symm

theorem mem_rangeCandles_of_mem_keptPage_bitstamp {c : OhlcCandle}
    (h : c ∈ keptPage up market secs stop .bitstamp start) :
    c ∈ rangeCandles up market secs .bitstamp := by
  simp only [keptPage, InTree.fetchOhlcRange, mem_filterToRange, bitstampFetchOhlcRange_eq] at h
  exact (mem_bitstampWindow.mp (List.mem_of_mem_drop h.1)).1

end Bitstamp

section CoinGecko

variable {tier : Tier}

theorem mem_keptPage_coingecko (hpaid : tier.isPaid = true) {c : OhlcCandle}
    (hc : c ∈ rangeCandles up market secs (.coinGecko tier)) :
    c ∈ keptPage up market secs stop (.coinGecko tier) start ↔
      start ≤ c.ts ∧ c.ts < stop ∧ InWindow up market secs stop (.coinGecko tier) start c := by
  cases hcoin : market.coinId with
  | none => simp [rangeCandles, hcoin] at hc
  | some coinId =>
    obtain ⟨row, hrow, rfl⟩ : ∃ row ∈ up.coingeckoItems coinId market.vsCurrency
        (coingeckoRangeSnapInterval secs).1,
        normaliseOhlcItem market (coingeckoRangeSnapInterval secs).2 row = c := by
      simpa [rangeCandles, hcoin] using hc
    simp only [keptPage, InTree.fetchOhlcRange, hpaid, if_true, hcoin, mem_filterToRange,
      coingeckoFetchOhlcRange, Upstream.fetchCoingeckoRange, InWindow, List.mem_map,
      List.mem_filter, decide_eq_true_eq, coingeckoPageEnd]
    constructor
    · rintro ⟨⟨row', ⟨-, -, hend⟩, hsame⟩, hlow, hhigh⟩
      refine ⟨hlow, hhigh, ?_⟩
      rw [← hsame]
      exact hend
    · rintro ⟨hlow, hhigh, hend⟩
      have hfloor : truncateToMinute start ≤ start := by
        unfold truncateToMinute
        omega
      exact ⟨⟨row, ⟨hrow, hfloor.trans hlow, hend⟩, rfl⟩, hlow, hhigh⟩

theorem mem_rangeCandles_of_mem_keptPage_coingecko {c : OhlcCandle}
    (h : c ∈ keptPage up market secs stop (.coinGecko tier) start) :
    c ∈ rangeCandles up market secs (.coinGecko tier) := by
  by_cases hpaid : tier.isPaid = true
  · cases hcoin : market.coinId with
    | none => simp [keptPage, InTree.fetchOhlcRange, hpaid, hcoin] at h
    | some coinId =>
      simp only [keptPage, InTree.fetchOhlcRange, hpaid, if_true, hcoin, mem_filterToRange,
        coingeckoFetchOhlcRange, Upstream.fetchCoingeckoRange] at h
      obtain ⟨row, hrow, rfl⟩ := List.mem_map.mp h.1
      simp only [rangeCandles, hcoin]
      exact List.mem_map_of_mem (List.mem_of_mem_filter hrow)
  · simp [keptPage, InTree.fetchOhlcRange, hpaid] at h

end CoinGecko

variable {p : InTree} {x y : OhlcCandle}

theorem keptPage_sub (hx : x ∈ keptPage up market secs stop p start) :
    x ∈ rangeCandles up market secs p ∧ start ≤ x.ts ∧ x.ts < stop := by
  constructor
  · cases p with
    | binance => exact mem_rangeCandles_of_mem_keptPage_binance hx
    | bitstamp => exact mem_rangeCandles_of_mem_keptPage_bitstamp hx
    | coinGecko tier => exact mem_rangeCandles_of_mem_keptPage_coingecko hx
    | coinbase => simp [keptPage, InTree.fetchOhlcRange] at hx
    | kraken => simp [keptPage, InTree.fetchOhlcRange] at hx
  · unfold keptPage at hx
    split at hx
    · exact (mem_filterToRange.mp hx).2
    · cases hx

/-- A page leaves out no candle between its start and one it holds. -/
theorem keptPage_closed (hp : Provider.supports p .ohlcRange = true)
    (hx : x ∈ keptPage up market secs stop p start) (hy : y ∈ rangeCandles up market secs p)
    (hlow : start < y.ts) (hyx : y.ts < x.ts) : y ∈ keptPage up market secs stop p start := by
  have hmem := (keptPage_sub hx).1
  cases p with
  | binance =>
    obtain ⟨-, hstop, hcount⟩ := (mem_keptPage_binance hmem).mp hx
    refine (mem_keptPage_binance hy).mpr ⟨hlow.le, hyx.trans hstop, lt_of_le_of_lt ?_ hcount⟩
    apply List.countP_mono_left
    intro d _ hd
    simp only [decide_eq_true_eq] at hd ⊢
    exact hd.trans hyx
  | bitstamp =>
    obtain ⟨-, hstop, hend, -⟩ := (mem_keptPage_bitstamp hmem).mp hx
    exact (mem_keptPage_bitstamp hy).mpr ⟨hlow.le, hyx.trans hstop, hyx.le.trans hend,
      fun heq => absurd heq hlow.ne'⟩
  | coinGecko tier =>
    obtain ⟨-, hstop, hend⟩ := (mem_keptPage_coingecko hp hmem).mp hx
    exact (mem_keptPage_coingecko hp hy).mpr ⟨hlow.le, hyx.trans hstop, hyx.trans hend⟩
  | coinbase => cases hp
  | kraken => cases hp

/-- A candle on a page is also on the page that starts just past an earlier one. -/
theorem keptPage_later (hp : Provider.supports p .ohlcRange = true)
    (hx : x ∈ keptPage up market secs stop p start) (hy : y ∈ rangeCandles up market secs p)
    (hlow : start ≤ y.ts) (hyx : y.ts < x.ts) : x ∈ keptPage up market secs stop p (y.ts + 1) := by
  have hmem := (keptPage_sub hx).1
  cases p with
  | binance =>
    obtain ⟨-, hstop, hcount⟩ := (mem_keptPage_binance hmem).mp hx
    refine (mem_keptPage_binance hmem).mpr ⟨hyx, hstop, lt_of_le_of_lt ?_ hcount⟩
    rw [binanceWindow_countP, binanceWindow_countP]
    apply List.countP_mono_left
    intro d _ hd
    simp only [Bool.and_eq_true, fromTimestampMillis, timestampMillis] at hd ⊢
    have hrange := of_decide_eq_true hd.2
    exact ⟨hd.1, decide_eq_true ⟨by omega, hrange.2⟩⟩
  | bitstamp =>
    obtain ⟨-, hstop, hend, -⟩ := (mem_keptPage_bitstamp hmem).mp hx
    refine (mem_keptPage_bitstamp hmem).mpr ⟨hyx, hstop, ?_, ?_⟩
    · have hxSecs := bitstamp_seconds hmem
      have hySecs := bitstamp_seconds hy
      unfold bitstampPageEnd pageEndSecs at hend ⊢
      unfold fromTimestamp timestamp at hxSecs hySecs hend ⊢
      omega
    · intro heq
      have hxSecs := bitstamp_seconds hmem
      have hySecs := bitstamp_seconds hy
      unfold fromTimestamp timestamp at hxSecs hySecs
      omega
  | coinGecko tier =>
    obtain ⟨-, hstop, hend⟩ := (mem_keptPage_coingecko hp hmem).mp hx
    refine (mem_keptPage_coingecko hp hmem).mpr ⟨hyx, hstop, lt_of_lt_of_le hend ?_⟩
    unfold coingeckoPageEnd truncateToMinute
    omega
  | coinbase => cases hp
  | kraken => cases hp

end CryptoCollector.Collectors

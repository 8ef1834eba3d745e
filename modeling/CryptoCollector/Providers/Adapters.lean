import CryptoCollector.Foundations.Ascending
import CryptoCollector.Providers.InTree

/-!
# The range adapters

Each adapter snaps the wanted interval to one its service knows, clamps the
window of the request to what one call may ask for, and stamps the rows of the
answer. What a service holds is an `Upstream`, and it answers a request as the
adapter's documentation says. Upper and lower case are those of ASCII symbols.
-/

namespace CryptoCollector.Providers
open Foundations Models DateTime

/-- The entry of a table of intervals nearest to `secs`, the first of them in a tie. -/
def nearest {β : Type*} (table : List (ℤ × β)) (secs : ℤ) : Option (ℤ × β) :=
  table.argmin fun entry => (secs - entry.1).natAbs

/-- The intervals of `secs_to_kline_interval`. -/
def klineIntervals : List (ℤ × String) :=
  [(60, "1m"), (180, "3m"), (300, "5m"), (900, "15m"), (1800, "30m"), (3600, "1h"), (7200, "2h"),
    (14400, "4h"), (21600, "6h"), (28800, "8h"), (43200, "12h"), (86400, "1d"), (259200, "3d"),
    (604800, "1w"), (2592000, "1M")]

def secsToKlineInterval (intervalSecs : ℤ) : ℤ × String :=
  (nearest klineIntervals intervalSecs).getD (3600, "1h")

def bitstampSteps : List (ℤ × String) :=
  [(60, "1m"), (180, "3m"), (300, "5m"), (900, "15m"), (1800, "30m"), (3600, "1h"), (7200, "2h"),
    (14400, "4h"), (21600, "6h"), (43200, "12h"), (86400, "1d"), (259200, "3d")]

def snapToBitstampStep (intervalSecs : ℤ) : ℤ × String :=
  (nearest bitstampSteps (max intervalSecs 1)).getD (60, "1m")

/-- `coingecko_range_snap_interval`: the request parameter and the stamp. -/
def coingeckoRangeSnapInterval (intervalSecs : ℤ) : String × String :=
  ((nearest [(3600, "hourly", "1h"), (86400, "daily", "1d")] intervalSecs).map Prod.snd).getD
    ("daily", "1d")

def coingeckoRangeMaxSpan (param : String) : ℤ :=
  if param = "hourly" then days 31 else days 180

def bitstampPageLimit : ℕ := 1000

def pageEndSecs (startSecs endSecs stepSecs : ℤ) (limit : ℕ) : ℤ :=
  max (min endSecs (startSecs + stepSecs * limit)) startSecs

/-- The minute a `%Y-%m-%dT%H:%M` text names. -/
def truncateToMinute (t : ℤ) : ℤ := t / 60000000000 * 60000000000

/-- The prices of a row, and its time in the unit of its service. -/
structure WireRow where
  time : ℤ
  openPrice : ℚ
  high : ℚ
  low : ℚ
  close : ℚ
  deriving DecidableEq, Repr

/-- A row of an exchange. -/
structure VolumeRow extends WireRow where
  volume : ℚ
  deriving DecidableEq, Repr

/-- What the services hold: klines by symbol and interval, in milliseconds;
Bitstamp rows by pair and step, in seconds and on the grid of the step; CoinGecko
rows by coin, currency and parameter, in milliseconds. -/
structure Upstream where
  klines : String → String → List VolumeRow
  bitstampRows : String → ℤ → List VolumeRow
  coingeckoItems : String → String → String → List WireRow
  klines_ascending : ∀ symbol interval,
    Ascending (fun row => row.time) (klines symbol interval)
  bitstampRows_ascending : ∀ pair step, Ascending (fun row => row.time) (bitstampRows pair step)
  bitstampRows_grid : ∀ pair step, ∀ row ∈ bitstampRows pair step, step ∣ row.time
  coingeckoItems_ascending : ∀ coinId vsCurrency param,
    Ascending WireRow.time (coingeckoItems coinId vsCurrency param)

/-- Binance: at most `limit` klines, ascending from `start`, both ends included. -/
def Upstream.fetchKlinesRange (up : Upstream) (symbol interval : String) (startMs endMs : ℤ)
    (limit : ℕ) : List VolumeRow :=
  ((up.klines symbol interval).filter fun row => startMs ≤ row.time ∧ row.time ≤ endMs).take limit

/-- Bitstamp: the most recent `limit` rows of the closed window, ascending. -/
def Upstream.fetchBitstampOhlc (up : Upstream) (pair : String) (stepSecs : ℤ) (limit : ℕ)
    (start stop : ℤ) : List VolumeRow :=
  let rows := (up.bitstampRows pair stepSecs).filter fun row => start ≤ row.time ∧ row.time ≤ stop
  rows.drop (rows.length - limit)

/-- CoinGecko: the rows at or after `start` and before `stop`. -/
def Upstream.fetchCoingeckoRange (up : Upstream) (coinId vsCurrency param : String)
    (start stop : ℤ) : List WireRow :=
  (up.coingeckoItems coinId vsCurrency param).filter fun row =>
    start ≤ fromTimestampMillis row.time ∧ fromTimestampMillis row.time < stop

def normaliseKline (market : MarketQuery) (interval : String) (row : VolumeRow) : OhlcCandle :=
  ⟨market.marketId, interval, fromTimestampMillis row.time, row.openPrice, row.high, row.low,
    row.close, some row.volume, market.vsCurrency, "binance"⟩

def normaliseRow (market : MarketQuery) (interval : String) (row : VolumeRow) : OhlcCandle :=
  ⟨market.marketId, interval, fromTimestamp row.time, row.openPrice, row.high, row.low,
    row.close, some row.volume, market.vsCurrency, "bitstamp"⟩

def normaliseOhlcItem (market : MarketQuery) (interval : String) (row : WireRow) : OhlcCandle :=
  ⟨market.marketId, interval, fromTimestampMillis row.time, row.openPrice, row.high, row.low,
    row.close, none, market.vsCurrency, "coingecko"⟩

def tickerSymbol (market : MarketQuery) : String :=
  market.base.toUpper ++ market.quote.toUpper

def pairSymbol (market : MarketQuery) : String :=
  market.base.toLower ++ market.vsCurrency.toLower

/-- `fetch_ohlc_range` of the Binance adapter. -/
def binanceFetchOhlcRange (up : Upstream) (request : RangeRequest) : List OhlcCandle :=
  let interval := (secsToKlineInterval request.intervalSecs).2
  (up.fetchKlinesRange (tickerSymbol request.market) interval (timestampMillis request.start)
    (timestampMillis request.stop) 1000).map (normaliseKline request.market interval)

/-- `fetch_ohlc_range` of the Bitstamp adapter. -/
def bitstampFetchOhlcRange (up : Upstream) (request : RangeRequest) : List OhlcCandle :=
  let snapped := snapToBitstampStep request.intervalSecs
  let pageEnd := pageEndSecs (timestamp request.start) (timestamp request.stop) snapped.1
    bitstampPageLimit
  (up.fetchBitstampOhlc (pairSymbol request.market) snapped.1 bitstampPageLimit
    (timestamp request.start) pageEnd).map (normaliseRow request.market snapped.2)

/-- `fetch_ohlc_range` of the CoinGecko client. -/
def coingeckoFetchOhlcRange (up : Upstream) (coinId : String) (request : RangeRequest) :
    List OhlcCandle :=
  let snapped := coingeckoRangeSnapInterval request.intervalSecs
  let clampedEnd := min request.stop (request.start + coingeckoRangeMaxSpan snapped.1)
  (up.fetchCoingeckoRange coinId request.market.vsCurrency snapped.1
    (truncateToMinute request.start)
    (truncateToMinute clampedEnd)).map (normaliseOhlcItem request.market snapped.2)

/-- `fetch_ohlc_range` of a provider of the tree, with the service answering. -/
def InTree.fetchOhlcRange (up : Upstream) :
    InTree → RangeRequest → Except ProviderError (List OhlcCandle)
  | .binance, request => .ok (binanceFetchOhlcRange up request)
  | .bitstamp, request => .ok (bitstampFetchOhlcRange up request)
  | .coinGecko tier, request =>
    if tier.isPaid then
      match request.market.coinId with
      | none => .error (.other "coin_id required for CoinGecko OHLC range")
      | some coinId => .ok (coingeckoFetchOhlcRange up coinId request)
    else
      .error (.notSupported .ohlcRange)
  | .coinbase, _ => .error (.notSupported .ohlcRange)
  | .kraken, _ => .error (.notSupported .ohlcRange)

end CryptoCollector.Providers

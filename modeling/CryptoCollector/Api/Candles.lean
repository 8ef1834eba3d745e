import CryptoCollector.Api.CandlesAgg
import CryptoCollector.Api.Cursor
import CryptoCollector.Db.Candles

/-!
# The candles endpoint

`GET /v1/coins/{coin_id}/candles`: stored rows of the interval where there are
any, else candles folded from a shorter interval, page by page.
-/

namespace CryptoCollector.Api
open Models Db DateTime

structure Database where
  trackedCoins : List String
  candles : CandleTable

structure ListCandlesParams where
  interval : Option String
  vsCurrency : Option String
  cursor : Option String
  limit : Option ℤ
  start : Option ℤ
  end_ : Option ℤ
  deriving DecidableEq, Repr

def ensureCoinExists (db : Database) (coinId : String) : Except ApiError Unit :=
  if coinId ∈ db.trackedCoins then .ok ()
  else .error (.notFound ("coin '" ++ coinId ++ "' not found"))

/-- The text of `{allowed:?}`. -/
def allowedIntervals : String :=
  "[" ++ ", ".intercalate (ApiInterval.apiFacing.map fun i => "\"" ++ i.asStr ++ "\"") ++ "]"

def validateInterval (interval : String) : Except ApiError ApiInterval :=
  match ApiInterval.fromApiStr interval with
  | some i => .ok i
  | none => .error (.badRequest
      ("unsupported interval '" ++ interval ++ "': must be one of " ++ allowedIntervals))

def resolveCurrency (vsCurrency : Option String) : String := (vsCurrency.getD "usd").toLower

def maxSourceRows : ℤ := 50000

/-- The `LIMIT` of the source query. -/
def rowCap (limit targetSecs sourceSecs : ℤ) : ℤ :=
  min ((limit + 1) * (targetSecs / sourceSecs)) maxSourceRows

/-- The condition of a query on `ts`: absent bounds are not checked. -/
def inRange (before from_ until_ : Option ℤ) (ts : ℤ) : Bool :=
  before.all (fun b => ts < storeTimestamptz b) && from_.all (fun b => storeTimestamptz b ≤ ts) &&
    until_.all (fun b => ts < storeTimestamptz b)

/-- The source query: the newest rows of the series within the bounds. -/
def sourceRows (t : CandleTable) (coinId vsCurrency sourceInterval : String)
    (cursorTs sourceStart sourceEnd : Option ℤ) (cap : ℤ) : List CoinCandle :=
  (sortByTsDesc ((t.series coinId vsCurrency sourceInterval).filter
    fun c => inRange cursorTs sourceStart sourceEnd c.ts)).take cap.toNat

/-- The two `retain`s: buckets within the window asked for. -/
def retainWindow (start end_ : Option ℤ) (agg : List CoinCandle) : List CoinCandle :=
  agg.filter fun c => end_.all (fun e => c.ts ≤ e) && start.all (fun s => s ≤ c.ts)

/-- The native path of `list_candles`. -/
def nativePage (codec : KeysetCodec TsKey) (t : CandleTable) (coinId vsCurrency interval : String)
    (limit : ℤ) (cursorTs start end_ : Option ℤ) : Page CoinCandle :=
  let selected := (t.series coinId vsCurrency interval).filter fun c =>
    end_.all (fun e => c.ts ≤ storeTimestamptz e) &&
      start.all (fun s => storeTimestamptz s ≤ c.ts) &&
      cursorTs.all fun k => c.ts < storeTimestamptz k
  paginate codec.encode ((sortByTsDesc selected).take (limit + 1).toNat) limit fun c => ⟨c.ts⟩

/-- The aggregated path of `list_candles`, once the source interval is chosen. -/
def aggregatedPage (codec : KeysetCodec TsKey) (t : CandleTable) (now : ℤ)
    (coinId vsCurrency interval sourceInterval : String) (targetSecs sourceSecs limit : ℤ)
    (cursorTs start end_ : Option ℤ) : Page CoinCandle :=
  let cap := rowCap limit targetSecs sourceSecs
  let sourceStart := start.map fun s => s - seconds targetSecs
  let sourceEnd := end_.map fun e => e + seconds targetSecs
  let rows := sourceRows t coinId vsCurrency sourceInterval cursorTs sourceStart sourceEnd cap
  let sourceHitCap : Bool := cap ≤ rows.length
  let oldestSourceTs := rows.getLast?.map CoinCandle.ts
  let agg := retainWindow start end_
    (aggregateCandles rows targetSecs sourceSecs now sourceInterval interval)
  if sourceHitCap && decide ((agg.length : ℤ) ≤ limit) then
    let resumeTs := (agg.getLast?.map CoinCandle.ts).or
      (oldestSourceTs.map fun ts => bucketStart ts targetSecs)
    ⟨agg, resumeTs.map fun ts => codec.encode ⟨ts⟩⟩
  else
    paginate codec.encode agg limit fun c => ⟨c.ts⟩

/-- `list_candles` at the clock `now`. -/
def listCandles (codec : KeysetCodec TsKey) (db : Database) (now : ℤ) (coinId : String)
    (params : ListCandlesParams) : Except ApiError (Page CoinCandle) := do
  let some interval := params.interval
    | throw (.badRequest "'interval' query parameter is required")
  let requestedInterval ← validateInterval interval
  let limit ← (validateLimit params.limit).mapError .badRequest
  let cursorTs ← (params.cursor.mapM codec.decode).mapError .badRequest
  let cursorTs := cursorTs.map TsKey.ts
  let vsCurrency := resolveCurrency params.vsCurrency
  ensureCoinExists db coinId
  if db.candles.nativeExists coinId interval vsCurrency then
    return nativePage codec db.candles coinId vsCurrency interval limit cursorTs params.start
      params.end_
  let coverage := (db.candles.intervalCoverage coinId vsCurrency).map
    fun (interval, earliest, latest) => IntervalCoverage.mk interval earliest latest
  let targetSecs := requestedInterval.secs
  let some sourceInterval := selectSourceInterval coverage targetSecs params.start now
    | return ⟨[], none⟩
  let some sourceSecs := intervalSecs sourceInterval
    | return ⟨[], none⟩
  return aggregatedPage codec db.candles now coinId vsCurrency interval sourceInterval targetSecs
    sourceSecs limit cursorTs params.start params.end_

end CryptoCollector.Api

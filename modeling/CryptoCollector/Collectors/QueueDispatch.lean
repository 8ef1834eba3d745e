import CryptoCollector.Collectors.Backfill
import CryptoCollector.Providers.Transport

/-!
# Dispatching a queue item

A claimed item of `collection_queue` names what to fetch. Candles take a slot of
the first capable provider and then walk the chain; quotes, metadata and market
snapshots take theirs inside the walk; overlays and rollups ask nobody. What the
database answers is an `ItemEnv`, and so are the endpoints of the providers.
-/

namespace CryptoCollector.Collectors
open Models Providers Pacer

/-- The kinds of work `dispatch_item` knows. -/
inductive DispatchKind where
  | candles
  | spot
  | metadata
  | market
  | cycleOverlay
  | rollup
  deriving DecidableEq, Repr

/-- The arm of `dispatch_item` a pair of columns selects. -/
def dispatchKind (targetKind kind : String) : Option DispatchKind :=
  if targetKind = "coin" then
    match kind with
    | "candles" => some .candles
    | "spot" => some .spot
    | "metadata" => some .metadata
    | "market" => some .market
    | "cycle_overlay" => some .cycleOverlay
    | "rollup" => some .rollup
    | _ => none
  else
    none

inductive DispatchOutcome where
  | done
  | softSkip
  deriving DecidableEq, Repr

/-- What an item reads: the coin's symbol and poll interval in seconds, the
configured poll interval, the endpoints of the providers, the answers of the
upserts and of the two network-free recomputations. `Q`, `M` and `S` are what the
providers return for a quote, for metadata and for a market snapshot. -/
structure ItemEnv (V Q M S : Type*) where
  coin : Except String (Option (String × Option ℤ))
  globalSecs : ℤ
  fetchOhlc : V → OhlcRequest → Endpoint (List OhlcCandle)
  fetchSpot : V → MarketQuery → Endpoint Q
  fetchCoinMetadata : V → String → Endpoint M
  fetchCoinMarket : V → String → String → Endpoint S
  upsertCandles : List CoinCandle → Except String Unit
  upsertCoinQuote : String → Q → Except String Unit
  upsertCoinMetadata : M → Except String Unit
  upsertCoinMarketSnapshot : S → Except String Unit
  recomputeCycleOverlay : String → Except String Unit
  runRollup : String → Except String Unit

def DispatchError.message : DispatchError → String
  | .transient message => message
  | .permanent message => message

/-- The work stops at an error of its own, recorded. -/
def stopWith {α : Type*} (e : DispatchError) (s : Fleet) : Except DispatchError α × Fleet :=
  (.error e, s.record (.met (.own e.message)))

/-- A refused slot: cooldown and exhausted credit skip the work, anything else is
a transient failure. -/
def pacerOutcome {α : Type*} (skip : α) (e : AcquireSlotError) : Except DispatchError α :=
  if pacerShouldSkipQueue e then
    .ok skip
  else
    .error (.transient s!"pacer: {displayAcquireSlotError e}")

/-- `fetch_coin_context`, with an untracked coin refused for good. -/
def coinContext (coin : Except String (Option (String × Option ℤ))) (coinId : String) :
    Except DispatchError (String × Option ℤ) :=
  match coin with
  | .error e => .error (.transient e)
  | .ok none => .error (.permanent s!"coin {coinId} not found")
  | .ok (some context) => .ok context

variable {V Q M S T : Type*} [Provider V]

def firstProviderForCap (chain : List V) (capability : Capability) : Option String :=
  (chain.find? fun p => Provider.supports p capability).map Provider.name

/-- The end of an item that was served. -/
def storeServed (net : Net) (upserted : Except String Unit) (s : Fleet) :
    Except DispatchError DispatchOutcome × Fleet :=
  match upserted with
  | .ok () => (.ok .done, pokeRegistry net .upsertSuccess s)
  | .error e => stopWith (.transient e) (pokeRegistry net .upsertFailure s)

/-- The end of the candle arm: an empty batch does not reach the database, and the
rollup is enqueued either way. -/
def storeCandles (net : Net) (env : ItemEnv V Q M S) (coinId : String)
    (candles : List OhlcCandle) (s : Fleet) : Except DispatchError DispatchOutcome × Fleet :=
  let batch := candles.map (CoinCandle.ofOhlc coinId)
  match batchedUpsert env.upsertCandles batch with
  | .ok () =>
    let s := if batch.isEmpty then s else pokeRegistry net .upsertSuccess s
    (.ok .done, s.record (.enqueued "coin" coinId "rollup"))
  | .error e => stopWith (.transient e) (pokeRegistry net .upsertFailure s)

/-- The walk of the candle arm, by `chain_fetch_ohlc`. -/
def fetchCandles (net : Net) (env : ItemEnv V Q M S) (chain : List V) (request : OhlcRequest)
    (s : Fleet) : (Except ProviderError (List OhlcCandle) × List AttemptRecord) × Fleet :=
  chainFetchOhlcIn (pokeRegistry net)
    (fun p => (env.fetchOhlc p request).fetch net (Provider.name p)) chain s

/-- The `("coin", "candles")` arm. -/
def dispatchCandles (net : Net) (env : ItemEnv V Q M S) (chain : List V) (coinId : String)
    (s : Fleet) : Except DispatchError DispatchOutcome × Fleet :=
  match coinContext env.coin coinId with
  | .error e => stopWith e s
  | .ok (symbol, livePollSecs) =>
    match firstProviderForCap chain .ohlc with
    | none => stopWith (.permanent "no provider supports OHLC") s
    | some providerName =>
      match acquireSlot net .worker providerName s with
      | (.error e, s) => (pacerOutcome .softSkip e, s)
      | (.ok (), s) =>
        let request : OhlcRequest := ⟨.coinKeyed coinId symbol "USDT" "usd", 7,
          effectiveCandleIntervalSecs livePollSecs env.globalSecs⟩
        match fetchCandles net env chain request s with
        | ((.error e, _), s) => (.error (.transient e.display), s)
        | ((.ok candles, _), s) => storeCandles net env coinId candles s

/-- The walk of `chain_try` with the slot of each provider taken in its pace step. -/
def fetchPaced (net : Net) (capability : Capability) (endpoint : V → Endpoint T)
    (chain : List V) (s : Fleet) : Except ProviderError T × Fleet :=
  chainTry (pokeRegistry net) (acquireSlot net .pace)
    (fun p => (endpoint p).fetch net (Provider.name p)) capability chain s

/-- The part the quote, metadata and market arms share. -/
def dispatchPaced (net : Net) (capability : Capability) (missing : String)
    (endpoint : V → Endpoint T) (upsert : T → Except String Unit) (chain : List V) (s : Fleet) :
    Except DispatchError DispatchOutcome × Fleet :=
  match firstProviderForCap chain capability with
  | none => stopWith (.permanent missing) s
  | some _ =>
    match fetchPaced net capability endpoint chain s with
    | (.error (.pacer e), s) => (pacerOutcome .softSkip e, s)
    | (.error e, s) => (.error (.transient e.display), s)
    | (.ok answer, s) => storeServed net (upsert answer) s

/-- The `("coin", "spot")` arm. -/
def dispatchSpot (net : Net) (env : ItemEnv V Q M S) (chain : List V) (coinId : String)
    (s : Fleet) : Except DispatchError DispatchOutcome × Fleet :=
  match coinContext env.coin coinId with
  | .error e => stopWith e s
  | .ok (symbol, _) =>
    dispatchPaced net .spot "no provider supports Spot"
      (fun p => env.fetchSpot p (.coinKeyed coinId symbol "USDT" "usd"))
      (env.upsertCoinQuote coinId) chain s

/-- The `("coin", "metadata")` arm. -/
def dispatchMetadata (net : Net) (env : ItemEnv V Q M S) (chain : List V) (coinId : String)
    (s : Fleet) : Except DispatchError DispatchOutcome × Fleet :=
  dispatchPaced net .coinMetadata "no provider supports CoinMetadata"
    (fun p => env.fetchCoinMetadata p coinId) env.upsertCoinMetadata chain s

/-- The `("coin", "market")` arm. -/
def dispatchMarket (net : Net) (env : ItemEnv V Q M S) (chain : List V) (coinId : String)
    (s : Fleet) : Except DispatchError DispatchOutcome × Fleet :=
  dispatchPaced net .coinMarket "no provider supports CoinMarket"
    (fun p => env.fetchCoinMarket p coinId "usd") env.upsertCoinMarketSnapshot chain s

/-- The arms that ask nobody. -/
def dispatchDerived (recomputed : Except String Unit) (s : Fleet) :
    Except DispatchError DispatchOutcome × Fleet :=
  match recomputed with
  | .ok () => (.ok .done, s)
  | .error e => stopWith (.transient e) s

def dispatchItem (net : Net) (env : ItemEnv V Q M S) (chain : List V) (item : QueueColumns)
    (s : Fleet) : Except DispatchError DispatchOutcome × Fleet :=
  match dispatchKind item.targetKind item.kind with
  | some .candles => dispatchCandles net env chain item.targetId s
  | some .spot => dispatchSpot net env chain item.targetId s
  | some .metadata => dispatchMetadata net env chain item.targetId s
  | some .market => dispatchMarket net env chain item.targetId s
  | some .cycleOverlay => dispatchDerived (env.recomputeCycleOverlay item.targetId) s
  | some .rollup => dispatchDerived (env.runRollup item.targetId) s
  | none =>
    stopWith (.permanent
      s!"unknown dispatch: target_kind={item.targetKind.quote} kind={item.kind.quote}") s

/-- The one write of the queue worker's `finalize`. -/
def queueWrite (maxAttempts : ℤ) : Except DispatchError DispatchOutcome → LeaseWrite
  | .ok .done => .complete
  | .ok .softSkip => .release
  | .error (.permanent message) => .failPermanent message
  | .error (.transient message) => .failOrRetry maxAttempts message

end CryptoCollector.Collectors

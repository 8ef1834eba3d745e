import CryptoCollector.Collectors.LivePoller
import CryptoCollector.Collectors.QueueDispatch

/-!
# Pages and polls under the pacer

A backfill page and a poll of a coin as they reach the providers: slots, requests
and pokes on record. A page returns what the page without a world returns, for
the answers it got.
-/

namespace CryptoCollector.Collectors
open Models Providers Pacer

/-- What a page reads besides the pacer, with the endpoints of the providers. -/
structure PageEnv (V : Type*) where
  coin : Except String (Option (String × Option ℤ))
  globalSecs : ℤ
  fetchOhlcRange : V → RangeRequest → Endpoint (List OhlcCandle)
  fetchOhlc : V → OhlcRequest → Endpoint (List OhlcCandle)
  upsert : List CoinCandle → Except String Unit

variable {V Q : Type*}

/-- The end of a page, with the registry told how the upsert went. -/
def storePage (net : Net) (env : PageEnv V) (chunk : ChunkColumns) (start : Option ℤ)
    (intervalSecs : ℤ) (candles : List OhlcCandle) (s : Fleet) :
    Except DispatchError ChunkOutcome × Fleet :=
  let page := persistPage env.upsert chunk start intervalSecs none candles
  match page.outcome with
  | .error e => stopWith e (pokeRegistry net .upsertFailure s)
  | .ok outcome =>
    (.ok outcome, if page.upserted.isEmpty then s else pokeRegistry net .upsertSuccess s)

theorem persistPage_outcome (upsert : List CoinCandle → Except String Unit)
    (chunk : ChunkColumns) (start : Option ℤ) (intervalSecs : ℤ) (candles : List OhlcCandle)
    (asked asked' : Option (RangeRequest × List AttemptRecord)) :
    (persistPage upsert chunk start intervalSecs asked candles).outcome =
      (persistPage upsert chunk start intervalSecs asked' candles).outcome := by
  simp only [persistPage]
  split_ifs
  · rfl
  · split <;> rfl

theorem storePage_outcome (net : Net) (env : PageEnv V) (chunk : ChunkColumns)
    (start : Option ℤ) (intervalSecs : ℤ) (candles : List OhlcCandle) (s : Fleet)
    (asked : Option (RangeRequest × List AttemptRecord)) :
    (storePage net env chunk start intervalSecs candles s).1 =
      (persistPage env.upsert chunk start intervalSecs asked candles).outcome := by
  rw [persistPage_outcome env.upsert chunk start intervalSecs candles asked none]
  simp only [storePage]
  split <;> simp_all [stopWith]

variable [Provider V]

def fetchRange (net : Net) (env : PageEnv V) (chain : List V) (request : RangeRequest)
    (s : Fleet) : (Except ProviderError (List OhlcCandle) × List AttemptRecord) × Fleet :=
  chainFetchOhlcRangeIn (pokeRegistry net)
    (fun p => (env.fetchOhlcRange p request).fetch net (Provider.name p)) chain s

def fetchRecent (net : Net) (env : PageEnv V) (chain : List V) (request : OhlcRequest)
    (s : Fleet) : (Except ProviderError (List OhlcCandle) × List AttemptRecord) × Fleet :=
  chainFetchOhlcIn (pokeRegistry net)
    (fun p => (env.fetchOhlc p request).fetch net (Provider.name p)) chain s

/-- The fetch of `process_chunk`. -/
def fetchPageIn (net : Net) (env : PageEnv V) (chain : List V) (chunk : ChunkColumns)
    (market : MarketQuery) (start : Option ℤ) (intervalSecs : ℤ) (s : Fleet) :
    Except DispatchError ChunkOutcome × Fleet :=
  match start, chunk.rangeEnd with
  | some from_, some stop =>
    match fetchRange net env chain ⟨market, from_, stop, intervalSecs⟩ s with
    | ((.error e, _), s) => (.error (.transient e.display), s)
    | ((.ok candles, _), s) => storePage net env chunk start intervalSecs candles s
  | _, _ =>
    match fetchRecent net env chain
        ⟨market, rangeToDays start chunk.rangeEnd 90, intervalSecs⟩ s with
    | ((.error e, _), s) => (.error (.transient e.display), s)
    | ((.ok candles, _), s) => storePage net env chunk start intervalSecs candles s

def pageProvider (chain : List V) (chunk : ChunkColumns) : Option String :=
  if shouldUseRangePath (resumeStart chunk.cursor chunk.rangeStart) chunk.rangeEnd then
    firstRangeProvider chain
  else
    firstOhlcProvider chain

def processChunkIn (net : Net) (env : PageEnv V) (chain : List V) (chunk : ChunkColumns)
    (s : Fleet) : Except DispatchError ChunkOutcome × Fleet :=
  match coinContext env.coin chunk.coinId with
  | .error e => stopWith e s
  | .ok (symbol, livePollSecs) =>
    match pageProvider chain chunk with
    | none => stopWith (.permanent "no provider supports OHLC") s
    | some providerName =>
      match acquireSlot net .worker providerName s with
      | (.error e, s) => (pacerOutcome .softSkip e, s)
      | (.ok (), s) =>
        fetchPageIn net env chain chunk (.coinKeyed chunk.coinId symbol "USDT" "usd")
          (resumeStart chunk.cursor chunk.rangeStart)
          (resolveIntervalSecs chunk.interval livePollSecs env.globalSecs) s

/-- What a poll reads: the spot endpoints, the upsert of a quote and
`live_poll_max_interval_secs`. -/
structure PollEnv (V Q : Type*) where
  fetchSpot : V → MarketQuery → Endpoint Q
  upsertCoinQuote : String → Q → Except String Unit
  livePollMaxIntervalSecs : ℤ

/-- One coin of `poll_cycle`, up to the statement that ends its claim. -/
def pollCoin (net : Net) (env : PollEnv V Q) (chain : List V) (coin : TrackedCoin) (s : Fleet) :
    PollWrite × Fleet :=
  let market : MarketQuery := .coinKeyed coin.coinId coin.symbol "USDT" "usd"
  match fetchPaced net .spot (fun p => env.fetchSpot p market) chain s with
  | (.error e, s) =>
    (pollWrite env.livePollMaxIntervalSecs false (.error e : Except ProviderError Q), s)
  | (.ok quote, s) =>
    match env.upsertCoinQuote coin.coinId quote with
    | .ok () =>
      (pollWrite env.livePollMaxIntervalSecs true (.ok quote), pokeRegistry net .upsertSuccess s)
    | .error _ =>
      (pollWrite env.livePollMaxIntervalSecs false (.ok quote),
        pokeRegistry net .upsertFailure s)

/-- The coins a cycle claimed, in order, until a shutdown is seen. -/
def pollCoins (net : Net) (env : PollEnv V Q) (chain : List V) (shutdown : ℕ → Bool) :
    List TrackedCoin → Fleet → List PollWrite × Fleet
  | [], s => ([], s)
  | coin :: coins, s =>
    if shutdown s.turn then
      ([], s)
    else
      let polled := pollCoin net env chain coin s
      let rest := pollCoins net env chain shutdown coins polled.2
      (polled.1 :: rest.1, rest.2)

/-- The environment of a page without a world that reads what `env` reads, has the
given slot answer and the given fetch answers. -/
def PageEnv.toChunkEnv (env : PageEnv V) (acquire : String → Except AcquireSlotError Unit)
    (fetchOhlcRange : V → RangeRequest → Except ProviderError (List OhlcCandle))
    (fetchOhlc : V → OhlcRequest → Except ProviderError (List OhlcCandle)) : ChunkEnv V :=
  ⟨env.coin, env.globalSecs, acquire, fetchOhlcRange, fetchOhlc, env.upsert⟩

theorem fetchPageIn_outcome (net : Net) (env : PageEnv V) {chain : List V}
    (hnodup : chain.Nodup) (chunk : ChunkColumns) (market : MarketQuery) (start : Option ℤ)
    (intervalSecs : ℤ) (s : Fleet) (acquire : String → Except AcquireSlotError Unit) :
    ∃ fetchOhlcRange fetchOhlc,
      (fetchPageIn net env chain chunk market start intervalSecs s).1 =
        (fetchPage (env.toChunkEnv acquire fetchOhlcRange fetchOhlc) chain chunk market start
          intervalSecs).outcome := by
  by_cases hrange : ∃ from_ stop, start = some from_ ∧ chunk.rangeEnd = some stop
  · obtain ⟨from_, stop, rfl, hstop⟩ := hrange
    obtain ⟨answer, hanswer⟩ := chainFetchOhlcRangeInLoop_eq (pokeRegistry net)
      (fun p => (env.fetchOhlcRange p ⟨market, from_, stop, intervalSecs⟩).fetch net
        (Provider.name p)) hnodup ⟨market, from_, stop, intervalSecs⟩ [] none s
    refine ⟨answer, fun _ _ => .ok [], ?_⟩
    simp only [fetchPageIn, fetchPage, hstop, PageEnv.toChunkEnv, fetchRange,
      chainFetchOhlcRangeIn, chainFetchOhlcRange, ← hanswer]
    split
    · rename_i hwalk
      simp [hwalk]
    · rename_i hwalk
      simp only [hwalk]
      exact storePage_outcome net env chunk _ intervalSecs _ _ _
  · obtain ⟨answer, hanswer⟩ := chainFetchOhlcInLoop_eq (pokeRegistry net)
      (fun p => (env.fetchOhlc p
        ⟨market, rangeToDays start chunk.rangeEnd 90, intervalSecs⟩).fetch net (Provider.name p))
      chain hnodup ⟨market, rangeToDays start chunk.rangeEnd 90, intervalSecs⟩ [] none s
    refine ⟨fun _ _ => .ok [], answer, ?_⟩
    simp only [fetchPageIn, fetchPage]
    split
    · rename_i from_ stop hstop
      exact absurd ⟨from_, stop, rfl, hstop⟩ hrange
    · simp only [PageEnv.toChunkEnv, fetchRecent, chainFetchOhlcIn, chainFetchOhlc, ← hanswer]
      split
      · rename_i hwalk
        simp [hwalk, ChunkPage.stopped]
      · rename_i hwalk
        simp only [hwalk]
        exact storePage_outcome net env chunk _ intervalSecs _ _ _

/-- Over a chain that names nobody twice a page returns what the page without a
world returns, with the slot it was answered and some answers of the providers. -/
theorem processChunkIn_outcome (net : Net) (env : PageEnv V) {chain : List V}
    (hnodup : chain.Nodup) (chunk : ChunkColumns) (s : Fleet) :
    ∃ fetchOhlcRange fetchOhlc,
      (processChunkIn net env chain chunk s).1 =
        (processChunk (env.toChunkEnv (fun name => (acquireSlot net .worker name s).1)
          fetchOhlcRange fetchOhlc) chain chunk).outcome := by
  cases hcoin : env.coin with
  | error e =>
    refine ⟨fun _ _ => .ok [], fun _ _ => .ok [], ?_⟩
    simp [processChunkIn, processChunk, PageEnv.toChunkEnv, coinContext, hcoin, stopWith,
      ChunkPage.stopped]
  | ok coin =>
    cases coin with
    | none =>
      refine ⟨fun _ _ => .ok [], fun _ _ => .ok [], ?_⟩
      simp [processChunkIn, processChunk, PageEnv.toChunkEnv, coinContext, hcoin, stopWith,
        ChunkPage.stopped]
    | some context =>
      cases hname : pageProvider chain chunk with
      | none =>
        refine ⟨fun _ _ => .ok [], fun _ _ => .ok [], ?_⟩
        have hname' := hname
        unfold pageProvider at hname'
        simp [processChunkIn, processChunk, PageEnv.toChunkEnv, coinContext, hcoin, hname,
          hname', stopWith, ChunkPage.stopped]
      | some name =>
        obtain ⟨fetchOhlcRange, fetchOhlc, hpage⟩ := fetchPageIn_outcome net env hnodup chunk
          (.coinKeyed chunk.coinId context.1 "USDT" "usd")
          (resumeStart chunk.cursor chunk.rangeStart)
          (resolveIntervalSecs chunk.interval context.2 env.globalSecs)
          (acquireSlot net .worker name s).2 fun name => (acquireSlot net .worker name s).1
        refine ⟨fetchOhlcRange, fetchOhlc, ?_⟩
        have hname' := hname
        unfold pageProvider at hname'
        rcases hslot : acquireSlot net .worker name s with ⟨granted, t⟩
        rw [hslot] at hpage
        cases granted with
        | error e =>
          simp only [processChunkIn, processChunk, PageEnv.toChunkEnv, coinContext, hcoin, hname,
            hname', hslot, pacerOutcome, ChunkPage.stopped]
          split_ifs <;> rfl
        | ok granted =>
          cases granted
          simp only [processChunkIn, processChunk, PageEnv.toChunkEnv, coinContext, hcoin, hname,
            hname', hslot]
          simpa only [PageEnv.toChunkEnv, hcoin] using hpage

end CryptoCollector.Collectors

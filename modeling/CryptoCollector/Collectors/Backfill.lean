import CryptoCollector.Collectors.Lease
import CryptoCollector.Models.Interval
import CryptoCollector.Providers.Chain

/-!
# One backfill page

A claimed chunk is processed one page at a time: fetch from the provider chain,
keep what lies in the range, upsert it, then advance the cursor and complete or
release the chunk. Everything a page reads besides the chunk itself, the answers
of the database, of the pacer and of the providers, is one `ChunkEnv`.
-/

namespace CryptoCollector.Collectors
open Models Providers Pacer DateTime

/-- The columns `INSERT_BACKFILL_CHUNK_SQL` writes. -/
def newChunk (jobId : ℤ) (coinId dataset : String) (interval : Option String)
    (rangeStart rangeEnd : Option ℤ) : ChunkColumns :=
  ⟨jobId, coinId, dataset, interval, rangeStart.map storeTimestamptz,
    rangeEnd.map storeTimestamptz, none⟩

def emptyPageSkipCandles : ℤ := 1000

def resumeStart (cursor rangeStart : Option ℤ) : Option ℤ :=
  match cursor with
  | some c => some (c + 1)
  | none => rangeStart

/-- `range_to_days`: whole days truncated toward zero, at least one. -/
def rangeToDays (start rangeEnd : Option ℤ) (maxDays : ℕ) : ℕ :=
  match start, rangeEnd with
  | some start, some rangeEnd =>
    min (max ((rangeEnd - start).tdiv (days 1)) 1).toNat maxDays
  | _, _ => maxDays

/-- `effective_candle_interval_secs`, given the coin's poll interval in seconds. -/
def effectiveCandleIntervalSecs (livePollSecs : Option ℤ) (globalSecs : ℤ) : ℤ :=
  match livePollSecs with
  | some secs => if secs > 0 then secs else globalSecs
  | none => globalSecs

/-- `resolve_interval_secs`: the chunk's own interval wins. -/
def resolveIntervalSecs (chunkInterval : Option String) (livePollSecs : Option ℤ)
    (globalSecs : ℤ) : ℤ :=
  match chunkInterval.bind ApiInterval.fromStr with
  | some interval => interval.secs
  | none => effectiveCandleIntervalSecs livePollSecs globalSecs

def shouldUseRangePath (start rangeEnd : Option ℤ) : Bool := start.isSome && rangeEnd.isSome

/-- `next_cursor_for_page`: the next durable cursor, and whether the chunk is done. -/
def nextCursorForPage (start rangeEnd maxTs : Option ℤ) (pageSpanSecs : ℤ) : Option ℤ × Bool :=
  match maxTs with
  | some ts => (some ts, rangeEnd.all fun rangeEnd => ts ≥ rangeEnd)
  | none =>
    match start, rangeEnd with
    | some start, some rangeEnd =>
      let advanced := min (start + seconds (max pageSpanSecs 1)) rangeEnd
      (some advanced, advanced ≥ rangeEnd)
    | _, _ => (none, true)

/-- Classification of a failed page. -/
inductive DispatchError where
  | transient (message : String)
  | permanent (message : String)
  deriving DecidableEq, Repr

inductive ChunkOutcome where
  | progress (maxTs : Option ℤ) (intervalSecs : ℤ)
  | softSkip
  deriving DecidableEq, Repr

def pacerShouldSkipQueue : AcquireSlotError → Bool
  | .cooldown _ _ => true
  | .creditExhausted _ => true
  | .notFound _ => false
  | .contended _ => false
  | .db _ => false

variable {V : Type*} [Provider V]

def firstOhlcProvider (chain : List V) : Option String :=
  (chain.find? fun p => Provider.supports p .ohlc).map Provider.name

/-- `first_range_provider`: falls back to the first `Ohlc` provider. -/
def firstRangeProvider (chain : List V) : Option String :=
  ((chain.find? fun p => Provider.supports p .ohlcRange).map Provider.name).or
    (firstOhlcProvider chain)

/-- What a page reads: the coin's symbol and poll interval in seconds from
`tracked_coins`, the configured poll interval, the pacer, the providers, and the
outcome of the batched upsert. -/
structure ChunkEnv (V : Type*) where
  coin : Except String (Option (String × Option ℤ))
  globalSecs : ℤ
  acquireSlot : String → Except AcquireSlotError Unit
  fetchOhlcRange : V → RangeRequest → Except ProviderError (List OhlcCandle)
  fetchOhlc : V → OhlcRequest → Except ProviderError (List OhlcCandle)
  upsert : List CoinCandle → Except String Unit

/-- What a page did: its outcome, the rows it upserted, and the range request it
made with the attempts at it. -/
structure ChunkPage where
  outcome : Except DispatchError ChunkOutcome
  upserted : List CoinCandle
  asked : Option (RangeRequest × List AttemptRecord)

/-- A page that wrote nothing and asked nobody. -/
def ChunkPage.stopped (outcome : Except DispatchError ChunkOutcome) : ChunkPage :=
  ⟨outcome, [], none⟩

/-- The candles of the page that lie in the range; a provider may return more. -/
def filterToRange (start rangeEnd : Option ℤ) (candles : List OhlcCandle) : List OhlcCandle :=
  candles.filter fun c =>
    (start.all fun start => c.ts ≥ start) && (rangeEnd.all fun rangeEnd => c.ts < rangeEnd)

/-- `batched_upsert_coin_candles`: an empty batch does not reach the database. -/
def batchedUpsert (upsert : List CoinCandle → Except String Unit) (batch : List CoinCandle) :
    Except String Unit :=
  if batch.isEmpty then .ok () else upsert batch

/-- The end of `process_chunk`: upsert the page and report how far it came. -/
def persistPage (upsert : List CoinCandle → Except String Unit) (chunk : ChunkColumns)
    (start : Option ℤ) (intervalSecs : ℤ) (asked : Option (RangeRequest × List AttemptRecord))
    (candles : List OhlcCandle) : ChunkPage :=
  if candles.isEmpty then
    ⟨.ok (.progress none intervalSecs), [], asked⟩
  else
    let filtered := filterToRange start chunk.rangeEnd candles
    let batch := filtered.map (CoinCandle.ofOhlc chunk.coinId)
    match batchedUpsert upsert batch with
    | .error e => ⟨.error (.transient e), [], asked⟩
    | .ok () => ⟨.ok (.progress (filtered.map OhlcCandle.ts).max? intervalSecs), batch, asked⟩

/-- The fetch of `process_chunk`: by range when both bounds are known, else the
recent window. -/
def fetchPage (env : ChunkEnv V) (chain : List V) (chunk : ChunkColumns) (market : MarketQuery)
    (start : Option ℤ) (intervalSecs : ℤ) : ChunkPage :=
  match start, chunk.rangeEnd with
  | some from_, some stop =>
    let request : RangeRequest := ⟨market, from_, stop, intervalSecs⟩
    let answer := chainFetchOhlcRange env.fetchOhlcRange chain request
    let asked := some (request, answer.2)
    match answer.1 with
    | .error e => ⟨.error (.transient e.display), [], asked⟩
    | .ok candles => persistPage env.upsert chunk start intervalSecs asked candles
  | _, _ =>
    let request : OhlcRequest := ⟨market, rangeToDays start chunk.rangeEnd 90, intervalSecs⟩
    match (chainFetchOhlc env.fetchOhlc chain request).1 with
    | .error e => .stopped (.error (.transient e.display))
    | .ok candles => persistPage env.upsert chunk start intervalSecs none candles

theorem fetchPage_answered {env : ChunkEnv V} {chain : List V} {chunk : ChunkColumns}
    {market : MarketQuery} {from_ stop intervalSecs : ℤ} {candles : List OhlcCandle}
    (hstop : chunk.rangeEnd = some stop)
    (hanswer : (chainFetchOhlcRange env.fetchOhlcRange chain
      ⟨market, from_, stop, intervalSecs⟩).1 = .ok candles) :
    fetchPage env chain chunk market (some from_) intervalSecs =
      persistPage env.upsert chunk (some from_) intervalSecs
        (some (⟨market, from_, stop, intervalSecs⟩,
          (chainFetchOhlcRange env.fetchOhlcRange chain ⟨market, from_, stop, intervalSecs⟩).2))
        candles := by
  simp only [fetchPage, hstop, hanswer]

def processChunk (env : ChunkEnv V) (chain : List V) (chunk : ChunkColumns) : ChunkPage :=
  match env.coin with
  | .error e => .stopped (.error (.transient e))
  | .ok none => .stopped (.error (.permanent s!"coin {chunk.coinId} not found"))
  | .ok (some (symbol, livePollSecs)) =>
    let market : MarketQuery := .coinKeyed chunk.coinId symbol "USDT" "usd"
    let start := resumeStart chunk.cursor chunk.rangeStart
    let intervalSecs := resolveIntervalSecs chunk.interval livePollSecs env.globalSecs
    let providerName :=
      if shouldUseRangePath start chunk.rangeEnd then
        firstRangeProvider chain
      else
        firstOhlcProvider chain
    match providerName with
    | none => .stopped (.error (.permanent "no provider supports OHLC"))
    | some providerName =>
      match env.acquireSlot providerName with
      | .error e =>
        if pacerShouldSkipQueue e then
          .stopped (.ok .softSkip)
        else
          .stopped (.error (.transient s!"pacer: {displayAcquireSlotError e}"))
      | .ok () => fetchPage env chain chunk market start intervalSecs

/-- The writes of the worker's `finalize`, in order. -/
def finalizeWrites (maxAttempts : ℤ) (chunk : ChunkColumns) :
    Except DispatchError ChunkOutcome → List LeaseWrite
  | .ok (.progress maxTs intervalSecs) =>
    let pageSpanSecs := max intervalSecs 1 * emptyPageSkipCandles
    let start := resumeStart chunk.cursor chunk.rangeStart
    let next := nextCursorForPage start chunk.rangeEnd maxTs pageSpanSecs
    next.1.toList.map .advanceCursor ++ [if next.2 then .complete else .release]
  | .ok .softSkip => [.release]
  | .error (.permanent message) => [.failPermanent message]
  | .error (.transient message) => [.failOrRetry maxAttempts message]

section Writes

/-- The writes only a page that made progress issues. -/
def LeaseWrite.isProgress : LeaseWrite → Bool
  | .advanceCursor _ => true
  | .complete => true
  | .heartbeat _ _ => false
  | .release => false
  | .failOrRetry _ _ => false
  | .failPermanent _ => false

theorem finalizeWrites_stop (maxAttempts : ℤ) (chunk : ChunkColumns)
    {result : Except DispatchError ChunkOutcome}
    (h : ∀ maxTs secs, result ≠ .ok (.progress maxTs secs)) :
    ∃ op, finalizeWrites maxAttempts chunk result = [op] ∧ op.isProgress = false := by
  match result with
  | .ok (.progress maxTs secs) => exact absurd rfl (h maxTs secs)
  | .ok .softSkip => exact ⟨.release, rfl, rfl⟩
  | .error (.permanent message) => exact ⟨.failPermanent message, rfl, rfl⟩
  | .error (.transient message) => exact ⟨.failOrRetry maxAttempts message, rfl, rfl⟩

theorem progress_of_finalizeWrites {maxAttempts : ℤ} {chunk : ChunkColumns}
    {result : Except DispatchError ChunkOutcome} {op : LeaseWrite}
    (hop : op ∈ finalizeWrites maxAttempts chunk result) (hprogress : op.isProgress = true) :
    ∃ maxTs secs, result = .ok (.progress maxTs secs) := by
  match result with
  | .ok (.progress maxTs secs) => exact ⟨maxTs, secs, rfl⟩
  | .ok .softSkip | .error (.permanent message) | .error (.transient message) =>
    obtain rfl := List.mem_singleton.mp hop
    cases hprogress

variable {chunk : ChunkColumns} {start stop : ℤ}

theorem finalizeWrites_candles (hstop : chunk.rangeEnd = some stop) (maxAttempts ts secs : ℤ) :
    finalizeWrites maxAttempts chunk (.ok (.progress (some ts) secs)) =
      [.advanceCursor ts, if ts ≥ stop then .complete else .release] := by
  simp [finalizeWrites, nextCursorForPage, hstop]

/-- The cursor an empty page from `start` leaves. -/
def skipCursor (start stop secs : ℤ) : ℤ :=
  min (start + seconds (max secs 1 * emptyPageSkipCandles)) stop

theorem finalizeWrites_empty (hstart : resumeStart chunk.cursor chunk.rangeStart = some start)
    (hstop : chunk.rangeEnd = some stop) (maxAttempts secs : ℤ) :
    finalizeWrites maxAttempts chunk (.ok (.progress none secs)) =
      [.advanceCursor (skipCursor start stop secs),
        if skipCursor start stop secs ≥ stop then .complete else .release] := by
  have hspan : max (max secs 1 * emptyPageSkipCandles) 1 = max secs 1 * emptyPageSkipCandles := by
    unfold emptyPageSkipCandles
    omega
  simp [finalizeWrites, nextCursorForPage, hstart, hstop, hspan, skipCursor]

theorem skipCursor_le (start stop secs : ℤ) : skipCursor start stop secs ≤ stop :=
  min_le_right _ _

theorem le_skipCursor {secs : ℤ} (h : skipCursor start stop secs < stop) :
    start + seconds 1000 ≤ skipCursor start stop secs := by
  unfold skipCursor seconds emptyPageSkipCandles at h ⊢
  omega

end Writes

section Progress

variable {upsert : List CoinCandle → Except String Unit} {chunk : ChunkColumns}
  {asked : Option (RangeRequest × List AttemptRecord)} {candles : List OhlcCandle}
  {start stop maxTs : Option ℤ} {intervalSecs secs : ℤ}

theorem persistPage_progress
    (h : (persistPage upsert chunk start intervalSecs asked candles).outcome =
      .ok (.progress maxTs secs)) :
    secs = intervalSecs ∧
      maxTs = ((filterToRange start chunk.rangeEnd candles).map OhlcCandle.ts).max? ∧
      persistPage upsert chunk start intervalSecs asked candles =
        ⟨.ok (.progress maxTs secs),
          (filterToRange start chunk.rangeEnd candles).map (CoinCandle.ofOhlc chunk.coinId),
          asked⟩ := by
  unfold persistPage at h ⊢
  split_ifs at h ⊢ with hempty
  · obtain rfl : candles = [] := by simpa using hempty
    simp at h
    obtain ⟨rfl, rfl⟩ := h
    exact ⟨rfl, rfl, rfl⟩
  · cases hupsert : batchedUpsert upsert
        ((filterToRange start chunk.rangeEnd candles).map (CoinCandle.ofOhlc chunk.coinId)) with
    | error e => simp [hupsert] at h
    | ok result =>
      simp only [hupsert, Except.ok.injEq, ChunkOutcome.progress.injEq] at h ⊢
      obtain ⟨rfl, rfl⟩ := h
      exact ⟨rfl, rfl, rfl⟩

/-- What a page with both bounds did when it made progress. -/
structure RangePage (env : ChunkEnv V) (chain : List V) (chunk : ChunkColumns) (start stop : ℤ)
    (maxTs : Option ℤ) (secs : ℤ) (page : ChunkPage) (market : MarketQuery)
    (candles : List OhlcCandle) : Prop where
  answer : (chainFetchOhlcRange env.fetchOhlcRange chain ⟨market, start, stop, secs⟩).1 =
    .ok candles
  asked : page.asked = some (⟨market, start, stop, secs⟩,
    (chainFetchOhlcRange env.fetchOhlcRange chain ⟨market, start, stop, secs⟩).2)
  maxTs : maxTs = ((filterToRange (some start) (some stop) candles).map OhlcCandle.ts).max?
  upserted : page.upserted =
    (filterToRange (some start) (some stop) candles).map (CoinCandle.ofOhlc chunk.coinId)

theorem fetchPage_progress {env : ChunkEnv V} {chain : List V} {market : MarketQuery}
    {start stop : ℤ} (hstop : chunk.rangeEnd = some stop)
    (h : (fetchPage env chain chunk market (some start) intervalSecs).outcome =
      .ok (.progress maxTs secs)) :
    ∃ candles, RangePage env chain chunk start stop maxTs secs
      (fetchPage env chain chunk market (some start) intervalSecs) market candles := by
  simp only [fetchPage, hstop] at h ⊢
  cases hanswer : (chainFetchOhlcRange env.fetchOhlcRange chain
      ⟨market, start, stop, intervalSecs⟩).1 with
  | error e => simp [hanswer] at h
  | ok candles =>
    simp only [hanswer] at h ⊢
    obtain ⟨rfl, hmax, hpage⟩ := persistPage_progress h
    rw [hpage, hstop]
    rw [hstop] at hmax
    exact ⟨candles, hanswer, rfl, hmax, rfl⟩

theorem processChunk_progress_eq {env : ChunkEnv V} {chain : List V}
    (h : (processChunk env chain chunk).outcome = .ok (.progress maxTs secs)) :
    ∃ market intervalSecs, processChunk env chain chunk =
        fetchPage env chain chunk market (resumeStart chunk.cursor chunk.rangeStart)
          intervalSecs ∧
      firstRangeProvider chain ≠ none := by
  unfold processChunk at h ⊢
  cases hcoin : env.coin with
  | error e => simp [hcoin, ChunkPage.stopped] at h
  | ok coin =>
    cases coin with
    | none => simp [hcoin, ChunkPage.stopped] at h
    | some context =>
      simp only [hcoin] at h ⊢
      cases hname : (if shouldUseRangePath (resumeStart chunk.cursor chunk.rangeStart)
          chunk.rangeEnd then firstRangeProvider chain else firstOhlcProvider chain) with
      | none => simp [hname, ChunkPage.stopped] at h
      | some name =>
        simp only [hname] at h ⊢
        cases hslot : env.acquireSlot name with
        | error e =>
          simp only [hslot] at h
          split_ifs at h <;> simp [ChunkPage.stopped] at h
        | ok granted =>
          refine ⟨_, _, rfl, ?_⟩
          intro hnone
          have hohlc : firstOhlcProvider chain = none := (Option.or_eq_none_iff.mp hnone).2
          simp [hnone, hohlc] at hname

theorem processChunk_progress {env : ChunkEnv V} {chain : List V} {start stop : ℤ}
    (hstart : resumeStart chunk.cursor chunk.rangeStart = some start)
    (hstop : chunk.rangeEnd = some stop)
    (h : (processChunk env chain chunk).outcome = .ok (.progress maxTs secs)) :
    ∃ market candles, RangePage env chain chunk start stop maxTs secs
      (processChunk env chain chunk) market candles := by
  obtain ⟨market, intervalSecs, hpage, -⟩ := processChunk_progress_eq h
  rw [hpage, hstart] at h ⊢
  obtain ⟨candles, hrange⟩ := fetchPage_progress hstop h
  exact ⟨market, candles, hrange⟩

end Progress

end CryptoCollector.Collectors

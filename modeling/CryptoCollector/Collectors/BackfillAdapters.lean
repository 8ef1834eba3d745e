import CryptoCollector.Collectors.AdapterWindows

/-!
# The walk over one adapter

One worker walks a chunk over one range adapter, nothing fails, and the service
answers as its adapter expects. An empty page skips 1000 candles of the wanted
interval, whatever the window of the request was.
-/

namespace CryptoCollector.Collectors
open Foundations Models Providers DateTime

/-- Where the page after an empty page from `start` resumes; `start` at the end. -/
def skipFrom (secs stop start : ℤ) : ℤ :=
  if skipCursor start stop secs ≥ stop then
    start
  else
    storeTimestamptz (skipCursor start stop secs) + 1

/-- Just past the newest of the candles from `start` on that are older than
`candle`; `start` when there is none. -/
def resumeBefore (candles : List OhlcCandle) (start : ℤ) (candle : OhlcCandle) : ℤ :=
  ((candles.filter fun c => start ≤ c.ts ∧ c.ts < candle.ts).map OhlcCandle.ts).max?.elim start
    (· + 1)

/-- From the candle before it, or from the start of the range, some number of
skips comes to a request whose window has the candle. -/
def SkipsReach (up : Upstream) (market : MarketQuery) (secs : ℤ) (p : InTree) (a b : ℤ)
    (candle : OhlcCandle) : Prop :=
  ∃ k, (skipFrom secs b)^[k] (resumeBefore (rangeCandles up market secs p) a candle) ≤ candle.ts ∧
    InWindow up market secs b p
      ((skipFrom secs b)^[k] (resumeBefore (rangeCandles up market secs p) a candle)) candle

/-- The pages of one adapter as a forward walk. -/
def adapterWalk (up : Upstream) (market : MarketQuery) (secs : ℤ) (p : InTree)
    (hp : Provider.supports p .ohlcRange = true) (a b : ℤ) : ForwardWalk OhlcCandle where
  key := OhlcCandle.ts
  items := rangeCandles up market secs p
  page := keptPage up market secs b p
  skip s := storeTimestamptz (skipCursor s b secs)
  finished s := skipCursor s b secs ≥ b
  start := a
  stop := b
  key_inj _ hx _ hy hkey := (rangeCandles_ascending p).key_inj hx hy hkey
  page_sub _ _ hx := keptPage_sub hx
  page_closed _ _ hx _ hy hlow hyx := keptPage_closed hp hx hy hlow hyx
  page_later _ _ hx _ hy hlow hyx := keptPage_later hp hx hy hlow hyx
  le_skip s hunfinished := by
    have hskip := le_skipCursor (not_le.mp (of_decide_eq_false hunfinished))
    have hstore := storeTimestamptz_spec (skipCursor s b secs)
    unfold seconds at hskip
    omega
  finished_of_le s hle := by
    apply decide_eq_true
    unfold skipCursor seconds emptyPageSkipCandles
    omega

section Walk

variable {up : Upstream} {market : MarketQuery} {secs : ℤ} {p : InTree}
  {hp : Provider.supports p .ohlcRange = true} {a b : ℤ} {candle : OhlcCandle}

theorem adapterWalk_stride :
    (adapterWalk up market secs p hp a b).stride = skipFrom secs b := by
  funext s
  simp [ForwardWalk.stride, adapterWalk, skipFrom]

/-- Binance comes by every candle: only one candle can be in the window before
the next one. -/
theorem binance_reached (hp : Provider.supports InTree.binance .ohlcRange = true)
    (hcandle : candle ∈ rangeCandles up market secs .binance) (ha : a ≤ candle.ts)
    (hb : candle.ts < b) : (adapterWalk up market secs .binance hp a b).Reached candle := by
  set w := adapterWalk up market secs .binance hp a b with hw
  have hle : w.resumePoint candle ≤ candle.ts := w.resumePoint_le ha
  refine ⟨0, (mem_keptPage_binance hcandle).mpr ⟨hle, hb, ?_⟩⟩
  have hone : ∃ c, ∀ d ∈ rangeCandles up market secs .binance, d.ts < candle.ts →
      fromTimestampMillis (timestampMillis (w.resumePoint candle)) ≤ d.ts → d.ts = c := by
    rcases w.resumePoint_cases candle with ⟨heq, hfirst⟩ | ⟨u, hu, hstart, hlt, heq, hlast⟩
    · refine ⟨fromTimestampMillis (timestampMillis a), fun d hd hdc hlow => ?_⟩
      have hda : d.ts < a := by
        by_contra hle
        exact absurd (hfirst d hd (not_lt.mp hle)) (not_le.mpr hdc)
      have hmillis := binance_millis hd
      rw [heq] at hlow
      change fromTimestampMillis (timestampMillis a) ≤ d.ts at hlow
      unfold fromTimestampMillis timestampMillis at hmillis hlow ⊢
      omega
    · refine ⟨u.ts, fun d hd hdc hlow => ?_⟩
      have hmillis := binance_millis hu
      rw [heq] at hlow
      change fromTimestampMillis (timestampMillis (u.ts + 1)) ≤ d.ts at hlow
      have hud : u.ts ≤ d.ts := by
        unfold fromTimestampMillis timestampMillis at hmillis hlow
        omega
      exact le_antisymm (hlast d hd (le_trans hstart hud) hdc) hud
  obtain ⟨c, hc⟩ := hone
  have hcount : ((binanceWindow up market secs b (w.resumePoint candle)).countP fun d =>
      d.ts < candle.ts) ≤ 1 := by
    have hascending : Ascending OhlcCandle.ts
        (binanceWindow up market secs b (w.resumePoint candle)) :=
      (rangeCandles_ascending .binance).filter _
    refine hascending.countP_le_one (c := c) ?_
    intro d hd hdc
    obtain ⟨hmem, hlow, -⟩ := mem_binanceWindow.mp hd
    exact hc d hmem (by simpa using hdc) hlow
  exact lt_of_le_of_lt hcount (by norm_num)

/-- A candle of the range is reached by the walk's strides exactly when skips
come to a window that has it. -/
theorem reached_iff_skipsReach (hcandle : candle ∈ rangeCandles up market secs p)
    (ha : a ≤ candle.ts) (hb : candle.ts < b) :
    (adapterWalk up market secs p hp a b).Reached candle ↔
      SkipsReach up market secs p a b candle := by
  have hpage : ∀ s, p ≠ .binance → (candle ∈ keptPage up market secs b p s ↔
      s ≤ candle.ts ∧ InWindow up market secs b p s candle) := by
    intro s hbinance
    cases p with
    | binance => exact absurd rfl hbinance
    | bitstamp => simp [mem_keptPage_bitstamp hcandle, hb]
    | coinGecko tier => simp [mem_keptPage_coingecko hp hcandle, hb]
    | coinbase => cases hp
    | kraken => cases hp
  unfold ForwardWalk.Reached SkipsReach
  rw [adapterWalk_stride]
  by_cases hbinance : p = .binance
  · subst hbinance
    refine ⟨fun _ => ⟨0, ?_, trivial⟩, fun _ => ?_⟩
    · exact (adapterWalk up market secs .binance hp a b).resumePoint_le ha
    · have hreached := binance_reached hp hcandle ha hb
      unfold ForwardWalk.Reached at hreached
      rwa [adapterWalk_stride] at hreached
  · exact exists_congr fun k => hpage _ hbinance

end Walk

/-- A worker for whom nothing fails: the coin is tracked, slots are granted, the
services answer and the database writes. -/
def openEnv (up : Upstream) (symbol : String) (livePollSecs : Option ℤ) (globalSecs : ℤ) :
    ChunkEnv InTree where
  coin := .ok (some (symbol, livePollSecs))
  globalSecs := globalSecs
  acquireSlot _ := .ok ()
  fetchOhlcRange := InTree.fetchOhlcRange up
  fetchOhlc _ _ := .ok []
  upsert _ := .ok ()

def applyWrites {W : Type*} : List LeaseWrite → ChunkRow W → ChunkRow W
  | [], row => row
  | op :: rest, row => applyWrites rest (((backfillLease W).effect op).elim row fun f => f row)

/-- The worker claims the chunk if it is pending, processes a page of it and
finalizes; the rows upserted so far go along. -/
def pageOnce {W : Type*} (env : ChunkEnv InTree) (p : InTree) (maxAttempts : ℤ) (self : W)
    (s : ChunkRow W × List CoinCandle) : ChunkRow W × List CoinCandle :=
  if s.1.status = .pending then
    let row := claimRow self 0 60 s.1
    let page := processChunk env [p] row.payload
    (applyWrites (finalizeWrites maxAttempts row.payload page.outcome) row,
      page.upserted ++ s.2)
  else
    s

section Pages

variable {W : Type*} {up : Upstream} {symbol : String} {livePollSecs : Option ℤ} {globalSecs : ℤ}
  {p : InTree} {chunk : ChunkColumns} {start stop : ℤ}

/-- The interval the worker carries for the chunk. -/
abbrev carriedSecs (chunk : ChunkColumns) (livePollSecs : Option ℤ) (globalSecs : ℤ) : ℤ :=
  resolveIntervalSecs chunk.interval livePollSecs globalSecs

abbrev chunkMarket (chunk : ChunkColumns) (symbol : String) : MarketQuery :=
  .coinKeyed chunk.coinId symbol "USDT" "usd"

theorem fetchOhlcRange_ok (up : Upstream) (chunk : ChunkColumns) (symbol : String)
    (hp : Provider.supports p .ohlcRange = true) (start stop secs : ℤ) :
    ∃ candles, InTree.fetchOhlcRange up p ⟨chunkMarket chunk symbol, start, stop, secs⟩ =
      .ok candles := by
  cases p with
  | binance => exact ⟨_, rfl⟩
  | bitstamp => exact ⟨_, rfl⟩
  | coinGecko tier =>
    change tier.isPaid = true at hp
    simp only [InTree.fetchOhlcRange, hp, if_true, MarketQuery.coinId]
    exact ⟨_, rfl⟩
  | coinbase => cases hp
  | kraken => cases hp

theorem processChunk_open (up : Upstream) (symbol : String) (livePollSecs : Option ℤ)
    (globalSecs : ℤ) (hp : Provider.supports p .ohlcRange = true)
    (hstart : resumeStart chunk.cursor chunk.rangeStart = some start)
    (hstop : chunk.rangeEnd = some stop) :
    let secs := carriedSecs chunk livePollSecs globalSecs
    let kept := keptPage up (chunkMarket chunk symbol) secs stop p start
    let page := processChunk (openEnv up symbol livePollSecs globalSecs) [p] chunk
    page.outcome = .ok (.progress (kept.map OhlcCandle.ts).max? secs) ∧
      page.upserted = kept.map (CoinCandle.ofOhlc chunk.coinId) := by
  intro secs kept page
  have hsole : SoleRangeProvider p [p] := by simp [SoleRangeProvider, hp]
  have hname : firstRangeProvider [p] = some (Provider.name p) := by simp [firstRangeProvider, hp]
  obtain ⟨candles, hcandles⟩ := fetchOhlcRange_ok up chunk symbol hp start stop secs
  have hkept : kept = filterToRange (some start) (some stop) candles := by
    simp only [kept, keptPage, hcandles]
  have hpage : page = persistPage (fun _ => .ok ()) chunk (some start) secs
      (some (⟨chunkMarket chunk symbol, start, stop, secs⟩,
        (chainFetchOhlcRange (InTree.fetchOhlcRange up) [p]
          ⟨chunkMarket chunk symbol, start, stop, secs⟩).2)) candles := by
    have hanswer : (chainFetchOhlcRange (InTree.fetchOhlcRange up) [p]
        ⟨chunkMarket chunk symbol, start, stop, secs⟩).1 = .ok candles :=
      (chainFetchOhlcRange_sole hsole).trans hcandles
    simp only [page, processChunk, openEnv, hstart, hstop, shouldUseRangePath, Option.isSome_some,
      Bool.and_self, if_true, hname]
    exact fetchPage_answered hstop hanswer
  rw [hpage, hkept]
  unfold persistPage
  by_cases hempty : candles.isEmpty
  · obtain rfl : candles = [] := by simpa using hempty
    simp [filterToRange]
  · simp [hempty, hstop, batchedUpsert]

theorem rangeCandles_micros {market : MarketQuery} {secs : ℤ} {c : OhlcCandle}
    (hc : c ∈ rangeCandles up market secs p) : Micros c.ts := by
  unfold Micros
  cases p with
  | binance =>
    obtain ⟨row, -, rfl⟩ := List.mem_map.mp hc
    simp only [normaliseKline, fromTimestampMillis]
    omega
  | bitstamp =>
    obtain ⟨row, -, rfl⟩ := List.mem_map.mp hc
    simp only [normaliseRow, fromTimestamp]
    omega
  | coinGecko tier =>
    simp only [rangeCandles] at hc
    split at hc
    · cases hc
    · obtain ⟨row, -, rfl⟩ := List.mem_map.mp hc
      simp only [normaliseOhlcItem, fromTimestampMillis]
      omega
  | coinbase => cases hc
  | kraken => cases hc

abbrev chunkWalk (up : Upstream) (symbol : String) (livePollSecs : Option ℤ) (globalSecs : ℤ)
    (chunk : ChunkColumns) (p : InTree) (hp : Provider.supports p .ohlcRange = true) (a b : ℤ) :
    ForwardWalk OhlcCandle :=
  adapterWalk up (chunkMarket chunk symbol) (carriedSecs chunk livePollSecs globalSecs) p hp a b

/-- The chunk after `n` pages: it waits where the walk is, or is done where the
walk has ended, with the rows of those pages upserted. -/
structure AtPage (w : ForwardWalk OhlcCandle) (chunk : ChunkColumns) (n : ℕ)
    (s : ChunkRow W × List CoinCandle) : Prop where
  columns : { s.1.payload with cursor := none } = chunk
  progress : (s.1.status = .pending ∧
      resumeStart s.1.payload.cursor s.1.payload.rangeStart = some (w.advance^[n] w.start) ∧
      ∀ i < n, w.page (w.advance^[i] w.start) = [] → w.finished (w.advance^[i] w.start) = false) ∨
    (s.1.status = .done ∧ w.page (w.advance^[n] w.start) = [] ∧
      w.finished (w.advance^[n] w.start) = true)
  upserted : ∀ row, row ∈ s.2 ↔
    ∃ i < n, ∃ c ∈ w.page (w.advance^[i] w.start), row = CoinCandle.ofOhlc chunk.coinId c

theorem mem_pages_succ {w : ForwardWalk OhlcCandle} {coinId : String} {n : ℕ}
    {upserted : List CoinCandle}
    (h : ∀ row, row ∈ upserted ↔
      ∃ i < n, ∃ c ∈ w.page (w.advance^[i] w.start), row = CoinCandle.ofOhlc coinId c)
    (row : CoinCandle) :
    row ∈ (w.page (w.advance^[n] w.start)).map (CoinCandle.ofOhlc coinId) ++ upserted ↔
      ∃ i < n + 1, ∃ c ∈ w.page (w.advance^[i] w.start), row = CoinCandle.ofOhlc coinId c := by
  rw [List.mem_append, h, List.mem_map]
  constructor
  · rintro (⟨c, hc, rfl⟩ | ⟨i, hi, hrest⟩)
    · exact ⟨n, Nat.lt_succ_self n, c, hc, rfl⟩
    · exact ⟨i, hi.trans (Nat.lt_succ_self n), hrest⟩
  · rintro ⟨i, hi, c, hc, rfl⟩
    rcases Nat.lt_succ_iff_lt_or_eq.mp hi with hlt | rfl
    · exact Or.inr ⟨i, hlt, c, hc, rfl⟩
    · exact Or.inl ⟨c, hc, rfl⟩

theorem pageOnce_open (hp : Provider.supports p .ohlcRange = true) (maxAttempts : ℤ) (self : W)
    {row : ChunkRow W} {upserted : List CoinCandle} (hpending : row.status = .pending)
    (hstart : resumeStart row.payload.cursor row.payload.rangeStart = some start)
    (hstop : row.payload.rangeEnd = some stop) :
    let secs := carriedSecs row.payload livePollSecs globalSecs
    let kept := keptPage up (chunkMarket row.payload symbol) secs stop p start
    pageOnce (openEnv up symbol livePollSecs globalSecs) p maxAttempts self (row, upserted) =
      (applyWrites (finalizeWrites maxAttempts row.payload
        (.ok (.progress (kept.map OhlcCandle.ts).max? secs))) (claimRow self 0 60 row),
        kept.map (CoinCandle.ofOhlc row.payload.coinId) ++ upserted) := by
  intro secs kept
  obtain ⟨houtcome, hupserted⟩ :=
    processChunk_open up symbol livePollSecs globalSecs hp hstart hstop
  simp only [pageOnce, hpending, if_true]
  change (applyWrites (finalizeWrites maxAttempts row.payload
    (processChunk (openEnv up symbol livePollSecs globalSecs) [p] row.payload).outcome) _,
    (processChunk (openEnv up symbol livePollSecs globalSecs) [p] row.payload).upserted ++ _) = _
  rw [houtcome, hupserted]

section Step

variable {a b : ℤ} {hp : Provider.supports p .ohlcRange = true} {n : ℕ} {row : ChunkRow W}
  {upserted : List CoinCandle}

theorem open_succ {w : ForwardWalk OhlcCandle}
    (hopen : ∀ i < n, w.page (w.advance^[i] w.start) = [] →
      w.finished (w.advance^[i] w.start) = false)
    (hlast : w.page (w.advance^[n] w.start) = [] → w.finished (w.advance^[n] w.start) = false) :
    ∀ i < n + 1, w.page (w.advance^[i] w.start) = [] →
      w.finished (w.advance^[i] w.start) = false := by
  intro i hi hempty
  rcases Nat.lt_succ_iff_lt_or_eq.mp hi with hlt | rfl
  · exact hopen i hlt hempty
  · exact hlast hempty

theorem AtPage.empty {w : ForwardWalk OhlcCandle} (maxAttempts : ℤ) (self : W)
    (hw : w = chunkWalk up symbol livePollSecs globalSecs
      { row.payload with cursor := none } p hp a b)
    (hstop : row.payload.rangeEnd = some b)
    (hresume : resumeStart row.payload.cursor row.payload.rangeStart =
      some (w.advance^[n] w.start))
    (hopen : ∀ i < n, w.page (w.advance^[i] w.start) = [] →
      w.finished (w.advance^[i] w.start) = false)
    (hempty : w.page (w.advance^[n] w.start) = [])
    (hrows : ∀ candle, candle ∈ upserted ↔ ∃ i < n + 1, ∃ c ∈ w.page (w.advance^[i] w.start),
      candle = CoinCandle.ofOhlc row.payload.coinId c) :
    AtPage w { row.payload with cursor := none } (n + 1)
      (applyWrites (finalizeWrites maxAttempts row.payload
        (.ok (.progress ((w.page (w.advance^[n] w.start)).map OhlcCandle.ts).max?
          (carriedSecs row.payload livePollSecs globalSecs)))) (claimRow self 0 60 row),
        upserted) := by
  have hnone : ((w.page (w.advance^[n] w.start)).map OhlcCandle.ts).max? = none := by
    simp [hempty]
  have hnext : w.advance^[n + 1] w.start = w.stride (w.advance^[n] w.start) := by
    rw [Function.iterate_succ_apply', ForwardWalk.advance_of_empty hempty]
  have hfinished : w.finished (w.advance^[n] w.start) =
      decide (skipCursor (w.advance^[n] w.start) b
        (carriedSecs row.payload livePollSecs globalSecs) ≥ b) := by
    rw [hw]
    rfl
  rw [hnone, finalizeWrites_empty hresume hstop]
  by_cases hend : skipCursor (w.advance^[n] w.start) b
      (carriedSecs row.payload livePollSecs globalSecs) ≥ b
  · rw [decide_eq_true hend] at hfinished
    rw [ForwardWalk.stride, hfinished, if_pos rfl] at hnext
    rw [if_pos hend]
    refine ⟨rfl, Or.inr ⟨rfl, ?_, ?_⟩, hrows⟩
    · rw [hnext]
      exact hempty
    · rw [hnext]
      exact hfinished
  · rw [decide_eq_false hend] at hfinished
    rw [ForwardWalk.stride, hfinished, if_neg Bool.false_ne_true] at hnext
    rw [if_neg hend]
    refine ⟨rfl, Or.inl ⟨rfl, ?_, open_succ hopen fun _ => hfinished⟩, hrows⟩
    rw [hnext, hw]
    rfl

theorem AtPage.candles {w : ForwardWalk OhlcCandle} (maxAttempts : ℤ) (self : W)
    (hw : w = chunkWalk up symbol livePollSecs globalSecs
      { row.payload with cursor := none } p hp a b)
    (hstop : row.payload.rangeEnd = some b)
    (hopen : ∀ i < n, w.page (w.advance^[i] w.start) = [] →
      w.finished (w.advance^[i] w.start) = false)
    (hcandles : w.page (w.advance^[n] w.start) ≠ [])
    (hrows : ∀ candle, candle ∈ upserted ↔ ∃ i < n + 1, ∃ c ∈ w.page (w.advance^[i] w.start),
      candle = CoinCandle.ofOhlc row.payload.coinId c) :
    AtPage w { row.payload with cursor := none } (n + 1)
      (applyWrites (finalizeWrites maxAttempts row.payload
        (.ok (.progress ((w.page (w.advance^[n] w.start)).map OhlcCandle.ts).max?
          (carriedSecs row.payload livePollSecs globalSecs)))) (claimRow self 0 60 row),
        upserted) := by
  have hkey : w.key = OhlcCandle.ts := by
    rw [hw]
    rfl
  obtain ⟨z, hz, hlast, hadvance⟩ := ForwardWalk.exists_last hcandles
  obtain ⟨hmem, -, hbefore⟩ := w.page_sub _ z hz
  rw [hkey] at hlast hadvance hbefore
  rw [hw] at hmem hbefore
  have hmax : ((w.page (w.advance^[n] w.start)).map OhlcCandle.ts).max? = some z.ts := by
    rw [List.max?_eq_some_iff]
    refine ⟨List.mem_map_of_mem hz, ?_⟩
    intro ts hts
    obtain ⟨c, hc, rfl⟩ := List.mem_map.mp hts
    exact hlast c hc
  have hopen' : ¬z.ts ≥ b := not_le.mpr hbefore
  have hstored : storeTimestamptz z.ts = z.ts :=
    storeTimestamptz_of_micros (rangeCandles_micros hmem)
  rw [hmax, finalizeWrites_candles hstop, if_neg hopen']
  refine ⟨rfl, Or.inl ⟨rfl, ?_, open_succ hopen fun hempty => absurd hempty hcandles⟩, hrows⟩
  rw [Function.iterate_succ_apply', hadvance]
  change some (storeTimestamptz z.ts + 1) = some (z.ts + 1)
  rw [hstored]

theorem AtPage.done {w : ForwardWalk OhlcCandle} {env : ChunkEnv InTree} (maxAttempts : ℤ)
    (self : W) (hdone : row.status = .done) (hempty : w.page (w.advance^[n] w.start) = [])
    (hfinished : w.finished (w.advance^[n] w.start) = true)
    (hrows : ∀ candle, candle ∈ upserted ↔ ∃ i < n, ∃ c ∈ w.page (w.advance^[i] w.start),
      candle = CoinCandle.ofOhlc row.payload.coinId c) :
    AtPage w { row.payload with cursor := none } (n + 1)
      (pageOnce env p maxAttempts self (row, upserted)) := by
  have hfixed : w.advance^[n + 1] w.start = w.advance^[n] w.start := by
    rw [Function.iterate_succ_apply']
    simp [ForwardWalk.advance_of_empty hempty, ForwardWalk.stride, hfinished]
  have hsame : pageOnce env p maxAttempts self (row, upserted) = (row, upserted) := by
    simp [pageOnce, hdone]
  rw [hsame]
  refine ⟨rfl, Or.inr ?_, ?_⟩
  · rw [hfixed]
    exact ⟨hdone, hempty, hfinished⟩
  · intro candle
    rw [← mem_pages_succ hrows, hempty]
    rfl

theorem AtPage.step {s : ChunkRow W × List CoinCandle} (maxAttempts : ℤ) (self : W)
    (hstop : chunk.rangeEnd = some b)
    (h : AtPage (chunkWalk up symbol livePollSecs globalSecs chunk p hp a b) chunk n s) :
    AtPage (chunkWalk up symbol livePollSecs globalSecs chunk p hp a b) chunk (n + 1)
      (pageOnce (openEnv up symbol livePollSecs globalSecs) p maxAttempts self s) := by
  obtain ⟨row, upserted⟩ := s
  obtain ⟨hcolumns, hprogress, hupserted⟩ := h
  obtain rfl := hcolumns
  set w := chunkWalk up symbol livePollSecs globalSecs { row.payload with cursor := none } p hp a b
    with hw
  have hrows := mem_pages_succ hupserted
  rcases hprogress with ⟨hpending, hresume, hopen⟩ | ⟨hdone, hempty, hfinished⟩
  · rw [pageOnce_open hp maxAttempts self hpending hresume hstop]
    by_cases hempty : w.page (w.advance^[n] w.start) = []
    · exact AtPage.empty maxAttempts self hw hstop hresume hopen hempty hrows
    · exact AtPage.candles maxAttempts self hw hstop hopen hempty hrows
  · exact AtPage.done maxAttempts self hdone hempty hfinished hupserted

end Step

theorem AtPage.first {a b : ℤ} {hp : Provider.supports p .ohlcRange = true} (id now : ℤ)
    (hcursor : chunk.cursor = none) (hstart : chunk.rangeStart = some a) :
    AtPage (W := W) (chunkWalk up symbol livePollSecs globalSecs chunk p hp a b) chunk 0
      (newRow id now chunk, []) := by
  refine ⟨?_, Or.inl ⟨rfl, ?_, by simp⟩, by simp⟩
  · change { chunk with cursor := none } = chunk
    rw [← hcursor]
  · change resumeStart chunk.cursor chunk.rangeStart = some a
    rw [hcursor]
    exact hstart

def chunkPages (up : Upstream) (symbol : String) (livePollSecs : Option ℤ) (globalSecs : ℤ)
    (p : InTree) (maxAttempts : ℤ) (self : W) (chunk : ChunkColumns) (n : ℕ) :
    ChunkRow W × List CoinCandle :=
  (pageOnce (openEnv up symbol livePollSecs globalSecs) p maxAttempts self)^[n]
    (newRow 1 0 chunk, [])

theorem atPage_chunkPages {a b : ℤ} (hp : Provider.supports p .ohlcRange = true) (maxAttempts : ℤ)
    (self : W) (hcursor : chunk.cursor = none) (hstart : chunk.rangeStart = some a)
    (hstop : chunk.rangeEnd = some b) (n : ℕ) :
    AtPage (chunkWalk up symbol livePollSecs globalSecs chunk p hp a b) chunk n
      (chunkPages up symbol livePollSecs globalSecs p maxAttempts self chunk n) := by
  induction n with
  | zero => exact AtPage.first 1 0 hcursor hstart
  | succ n ih =>
    rw [chunkPages, Function.iterate_succ_apply']
    exact ih.step maxAttempts self hstop

/-- Once the chunk is done the rows upserted are those the walk collects. -/
theorem AtPage.mem_upserted_iff {a b : ℤ} {hp : Provider.supports p .ohlcRange = true} {n : ℕ}
    {s : ChunkRow W × List CoinCandle}
    (h : AtPage (chunkWalk up symbol livePollSecs globalSecs chunk p hp a b) chunk n s)
    (hdone : s.1.status = .done) {c : OhlcCandle}
    (hc : c ∈ rangeCandles up (chunkMarket chunk symbol)
      (carriedSecs chunk livePollSecs globalSecs) p) :
    CoinCandle.ofOhlc chunk.coinId c ∈ s.2 ↔
      (chunkWalk up symbol livePollSecs globalSecs chunk p hp a b).Collected c := by
  set w := chunkWalk up symbol livePollSecs globalSecs chunk p hp a b with hw
  rw [h.upserted]
  constructor
  · rintro ⟨i, -, d, hd, heq⟩
    have hts : c.ts = d.ts := congrArg CoinCandle.ts heq
    obtain rfl := w.key_inj c hc d (w.page_sub _ d hd).1 hts
    exact ⟨i, hd⟩
  · rintro ⟨i, hi⟩
    refine ⟨i, ?_, c, hi, rfl⟩
    by_contra hle
    rcases h.progress with ⟨hpending, -, -⟩ | ⟨-, hempty, hfinished⟩
    · cases hpending.symm.trans hdone
    · have hfixed : w.advance (w.advance^[n] w.start) = w.advance^[n] w.start := by
        simp [ForwardWalk.advance_of_empty hempty, ForwardWalk.stride, hfinished]
      have hsame : w.advance^[i] w.start = w.advance^[n] w.start := by
        rw [← Nat.sub_add_cancel (not_lt.mp hle), Function.iterate_add_apply]
        exact Function.iterate_fixed hfixed _
      rw [hsame, hempty] at hi
      cases hi

/-- The walk over an adapter finishes. -/
theorem chunkPages_done (chunk : ChunkColumns) {a b : ℤ} (up : Upstream) (symbol : String)
    (livePollSecs : Option ℤ)
    (globalSecs : ℤ) (hp : Provider.supports p .ohlcRange = true) (maxAttempts : ℤ) (self : W)
    (hcursor : chunk.cursor = none) (hstart : chunk.rangeStart = some a)
    (hstop : chunk.rangeEnd = some b) :
    ∃ n, (chunkPages up symbol livePollSecs globalSecs p maxAttempts self chunk n).1.status =
      .done := by
  set w := chunkWalk up symbol livePollSecs globalSecs chunk p hp a b with hw
  obtain ⟨n, hempty, hfinished⟩ := w.exists_finished
  have hat : AtPage w chunk (n + 1)
      (chunkPages up symbol livePollSecs globalSecs p maxAttempts self chunk (n + 1)) :=
    atPage_chunkPages hp maxAttempts self hcursor hstart hstop (n + 1)
  refine ⟨n + 1, ?_⟩
  rcases hat.progress with ⟨-, -, hopen⟩ | ⟨hdone, -, -⟩
  · have hunfinished := hopen n (Nat.lt_succ_self n) hempty
    rw [hfinished] at hunfinished
    cases hunfinished
  · exact hdone

end Pages

/-- A chunk walked over one range adapter ends with every candle of its range
upserted exactly when each candle lies in the window of a request that skips
from the candle before it come to. -/
theorem adapter_walk_iff (up : Upstream) (symbol : String) (livePollSecs : Option ℤ)
    (globalSecs : ℤ) {p : InTree} (hp : Provider.supports p .ohlcRange = true) (maxAttempts : ℤ)
    {W : Type*} (self : W) (jobId : ℤ) (coinId dataset : String) (interval : Option String)
    (rangeStart rangeEnd : ℤ) :
    let chunk := newChunk jobId coinId dataset interval (some rangeStart) (some rangeEnd)
    let secs := resolveIntervalSecs interval livePollSecs globalSecs
    let market := MarketQuery.coinKeyed coinId symbol "USDT" "usd"
    (∀ n, (chunkPages up symbol livePollSecs globalSecs p maxAttempts self chunk n).1.status =
        .done → ∀ c ∈ rangeCandles up market secs p,
          storeTimestamptz rangeStart ≤ c.ts → c.ts < storeTimestamptz rangeEnd →
          CoinCandle.ofOhlc coinId c ∈
            (chunkPages up symbol livePollSecs globalSecs p maxAttempts self chunk n).2) ↔
      ∀ c ∈ rangeCandles up market secs p,
        storeTimestamptz rangeStart ≤ c.ts → c.ts < storeTimestamptz rangeEnd →
        SkipsReach up market secs p (storeTimestamptz rangeStart) (storeTimestamptz rangeEnd)
          c := by
  intro chunk secs market
  set w := chunkWalk up symbol livePollSecs globalSecs chunk p hp (storeTimestamptz rangeStart)
    (storeTimestamptz rangeEnd) with hw
  have hat : ∀ n, AtPage w chunk n
      (chunkPages up symbol livePollSecs globalSecs p maxAttempts self chunk n) :=
    atPage_chunkPages hp maxAttempts self rfl rfl rfl
  constructor
  · intro hall c hc hlow hhigh
    obtain ⟨n, hdone⟩ := chunkPages_done chunk up symbol livePollSecs globalSecs hp maxAttempts
      self rfl rfl rfl
    have hcollected : ∀ d, w.InRange d → w.Collected d := by
      rintro d ⟨hd, hdlow, hdhigh⟩
      exact ((hat n).mem_upserted_iff hdone hd).mp (hall n hdone d hd hdlow hdhigh)
    exact (reached_iff_skipsReach hc hlow hhigh).mp
      (w.collected_iff_reached.mp hcollected c ⟨hc, hlow, hhigh⟩)
  · intro hreach n hdone c hc hlow hhigh
    have hreached : ∀ d, w.InRange d → w.Reached d := by
      rintro d ⟨hd, hdlow, hdhigh⟩
      exact (reached_iff_skipsReach hd hdlow hdhigh).mpr (hreach d hd hdlow hdhigh)
    exact ((hat n).mem_upserted_iff hdone hc).mpr
      (w.collected_iff_reached.mpr hreached c ⟨hc, hlow, hhigh⟩)

section Example

/-- A service that has one daily candle, on 2014-07-20. -/
def oneDay : Upstream where
  klines _ _ := []
  bitstampRows _ _ := []
  coingeckoItems _ _ _ := [⟨1405814400000, 600, 610, 590, 605⟩]
  klines_ascending _ _ := List.Pairwise.nil
  bitstampRows_ascending _ _ := List.Pairwise.nil
  bitstampRows_grid _ _ _ hrow := by cases hrow
  coingeckoItems_ascending _ _ _ := List.pairwise_singleton _ _

/-- A chunk of daily candles from 2014-01-01 to 2015-01-01. -/
def year2014 : ChunkColumns :=
  newChunk 1 "bitcoin" "candles_deep_1d" (some "1d") (some (seconds 1388534400))
    (some (seconds 1420070400))

/-- CoinGecko on a paid tier: the first page covers 180 days and is empty, the
skip covers 1000, and the chunk is done without the candle. -/
theorem skip_past_candle :
    ∃ n, (chunkPages oneDay "BTC" none 300 (.coinGecko .pro) 5 (0 : Fin 1) year2014 n).1.status =
        .done ∧
      ∃ c ∈ rangeCandles oneDay (.coinKeyed "bitcoin" "BTC" "USDT" "usd")
          (resolveIntervalSecs (some "1d") none 300) (.coinGecko .pro),
        seconds 1388534400 ≤ c.ts ∧ c.ts < seconds 1420070400 ∧
        CoinCandle.ofOhlc "bitcoin" c ∉
          (chunkPages oneDay "BTC" none 300 (.coinGecko .pro) 5 (0 : Fin 1) year2014 n).2 := by
  refine ⟨1, ?_⟩
  decide +kernel

/-- A chunk of daily candles from 2011-08-01 to 2015-01-01. -/
def from2011 : ChunkColumns :=
  newChunk 1 "bitcoin" "candles_deep_1d" (some "1d") (some (seconds 1312156800))
    (some (seconds 1420070400))

theorem skipsReach_from2011 : ∀ c ∈ rangeCandles oneDay (.coinKeyed "bitcoin" "BTC" "USDT" "usd")
      (resolveIntervalSecs (some "1d") none 300) (.coinGecko .pro),
    SkipsReach oneDay (.coinKeyed "bitcoin" "BTC" "USDT" "usd")
      (resolveIntervalSecs (some "1d") none 300) (.coinGecko .pro)
      (storeTimestamptz (seconds 1312156800)) (storeTimestamptz (seconds 1420070400)) c := by
  intro c hc
  refine ⟨1, ?_⟩
  revert c hc
  unfold InWindow
  decide +kernel

theorem adapter_walk_iff_coingecko :
    ∃ n, (chunkPages oneDay "BTC" none 300 (.coinGecko .pro) 5 (0 : Fin 1) from2011 n).1.status =
        .done ∧
      ∃ c ∈ rangeCandles oneDay (.coinKeyed "bitcoin" "BTC" "USDT" "usd")
          (resolveIntervalSecs (some "1d") none 300) (.coinGecko .pro),
        c.ts = seconds 1405814400 ∧
        CoinCandle.ofOhlc "bitcoin" c ∈
          (chunkPages oneDay "BTC" none 300 (.coinGecko .pro) 5 (0 : Fin 1) from2011 n).2 := by
  have hdone : (chunkPages oneDay "BTC" none 300 (.coinGecko .pro) 5 (0 : Fin 1)
      from2011 3).1.status = .done := by
    decide +kernel
  have hcandle : ∃ c ∈ rangeCandles oneDay (.coinKeyed "bitcoin" "BTC" "USDT" "usd")
      (resolveIntervalSecs (some "1d") none 300) (.coinGecko .pro),
        c.ts = seconds 1405814400 ∧ storeTimestamptz (seconds 1312156800) ≤ c.ts ∧
          c.ts < storeTimestamptz (seconds 1420070400) := by
    decide +kernel
  obtain ⟨c, hc, hday, hlow, hhigh⟩ := hcandle
  refine ⟨3, hdone, c, hc, hday, ?_⟩
  exact (adapter_walk_iff oneDay "BTC" none 300 rfl 5 0 1 "bitcoin" "candles_deep_1d" (some "1d")
    (seconds 1312156800) (seconds 1420070400)).mpr
      (fun c hc _ _ => skipsReach_from2011 c hc) 3 hdone c hc hlow hhigh

end Example

end CryptoCollector.Collectors

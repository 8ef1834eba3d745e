import CryptoCollector.Api.Quotes

/-!
# Latest quotes

`GET /v1/coins/{coin_id}/quotes/latest` and the overview of all coins. The three reads of
`coin_quotes` agree: a coin is in the overview with the quote its own endpoint answers, which is
the first of its history, and the price of a day ago is the last of the history since then.
-/

namespace CryptoCollector.Api
open Models Db Foundations DateTime

/-- `CoinQuoteOverviewDto`. -/
structure CoinQuoteOverview where
  coinId : String
  vsCurrency : String
  ts : ℤ
  price : ℚ
  open24h : Option ℚ
  source : String
  deriving DecidableEq, Repr

/-- `interval '24 hours'`. -/
def baselineWindow : ℤ := seconds (24 * 3600)

/-- `ts >= now() - interval '48 hours' ORDER BY ts DESC LIMIT 1`. -/
def currentQuote (rows : List CoinQuote) (now : ℤ) : Option CoinQuote :=
  (newestFirst CoinQuote.ts (rows.filter fun q => now - defaultQuoteWindow ≤ q.ts)).head?

/-- `ts >= now() - interval '24 hours' AND ts < q.ts ORDER BY ts ASC LIMIT 1`. -/
def baselineQuote (rows : List CoinQuote) (now ts : ℤ) : Option CoinQuote :=
  (sortBy CoinQuote.ts (rows.filter fun q => now - baselineWindow ≤ q.ts ∧ q.ts < ts)).head?

def getLatestQuote (trackedCoins : List String) (quotes : SeriesTable CoinQuote.key) (now : ℤ)
    (coinId : String) (vsCurrency : Option String) : Except ApiError CoinQuote := do
  let vsCurrency := vsCurrency.getD "usd"
  ensureTracked trackedCoins coinId
  match currentQuote (quotes.series coinId vsCurrency) now with
  | some q => return q
  | none => throw (.notFound ("no current quote found for coin '" ++ coinId ++ "'"))

def listLatestQuotes (coins : TrackedCoinTable) (quotes : SeriesTable CoinQuote.key) (now : ℤ)
    (vsCurrency : Option String) : List CoinQuoteOverview :=
  (coins.rows.filter fun c => c.status = "active").filterMap fun c =>
    let rows := quotes.series c.coinId (vsCurrency.getD "usd")
    (currentQuote rows now).map fun q =>
      ⟨c.coinId, q.vsCurrency, q.ts, q.price, (baselineQuote rows now q.ts).map CoinQuote.price,
        q.source⟩

section Series

variable {α : Type} {value : α → ℤ} {rows : List α}

theorem newestFirst_sorted (hdistinct : (rows.map value).Nodup) :
    Ascending (fun x => OrderDual.toDual (value x)) (newestFirst value rows) := by
  apply sortBy_ascending
  have hdual := hdistinct.map OrderDual.toDual.injective
  rwa [List.map_map] at hdual

variable {quotes : SeriesTable CoinQuote.key} {coinId vsCurrency : String} {now ts : ℤ}
  {q : CoinQuote}

theorem filter_distinctTs (p : CoinQuote → Bool) :
    (((quotes.series coinId vsCurrency).filter p).map CoinQuote.ts).Nodup :=
  (SeriesTable.series_nodup (t := quotes)).sublist (List.filter_sublist.map _)

theorem currentQuote_eq_some_iff :
    currentQuote (quotes.series coinId vsCurrency) now = some q ↔
      (q ∈ quotes.series coinId vsCurrency ∧ now - defaultQuoteWindow ≤ q.ts) ∧
        ∀ q' ∈ quotes.series coinId vsCurrency, now - defaultQuoteWindow ≤ q'.ts →
          q'.ts ≤ q.ts := by
  rw [currentQuote, (newestFirst_sorted (filter_distinctTs _)).head?_eq_some_iff]
  simp

theorem baselineQuote_eq_some_iff :
    baselineQuote (quotes.series coinId vsCurrency) now ts = some q ↔
      q ∈ quotes.series coinId vsCurrency ∧ now - baselineWindow ≤ q.ts ∧ q.ts < ts ∧
        ∀ q' ∈ quotes.series coinId vsCurrency, now - baselineWindow ≤ q'.ts → q.ts ≤ q'.ts := by
  rw [baselineQuote, (sortBy_ascending _ (filter_distinctTs _)).head?_eq_some_iff]
  simp only [mem_sortBy, List.mem_filter, decide_eq_true_eq]
  constructor
  · rintro ⟨⟨hq, hrecent, holder⟩, hleast⟩
    refine ⟨hq, hrecent, holder, ?_⟩
    intro q' hq' hrecent'
    by_cases holder' : q'.ts < ts
    · exact hleast q' ⟨hq', hrecent', holder'⟩
    · exact holder.le.trans (not_lt.mp holder')
  · rintro ⟨hq, hrecent, holder, hleast⟩
    exact ⟨⟨hq, hrecent, holder⟩, fun q' hq' => hleast q' hq'.1 hq'.2.1⟩

variable {trackedCoins : List String} {currency : Option String}

theorem getLatestQuote_eq_ok_iff :
    getLatestQuote trackedCoins quotes now coinId currency = .ok q ↔
      coinId ∈ trackedCoins ∧
        currentQuote (quotes.series coinId (currency.getD "usd")) now = some q := by
  unfold getLatestQuote ensureTracked
  by_cases htracked : coinId ∈ trackedCoins
  · cases hcurrent : currentQuote (quotes.series coinId (currency.getD "usd")) now <;>
      simp [htracked, hcurrent, bind, Except.bind, pure, Except.pure, throw, throwThe,
        MonadExceptOf.throw]
  · simp [htracked, bind, Except.bind]

end Series

section Overview

variable {coins : TrackedCoinTable} {quotes : SeriesTable CoinQuote.key} {now : ℤ}
  {currency : Option String} {row : CoinQuoteOverview}

theorem mem_listLatestQuotes :
    row ∈ listLatestQuotes coins quotes now currency ↔
      ∃ c ∈ coins.rows, c.status = "active" ∧
        ∃ q, currentQuote (quotes.series c.coinId (currency.getD "usd")) now = some q ∧
          row = ⟨c.coinId, q.vsCurrency, q.ts, q.price,
            (baselineQuote (quotes.series c.coinId (currency.getD "usd")) now q.ts).map
              CoinQuote.price, q.source⟩ := by
  simp only [listLatestQuotes, List.mem_filterMap, List.mem_filter, decide_eq_true_eq,
    Option.map_eq_some_iff, and_assoc, eq_comm (b := row)]

/-- A coin has one row at most. -/
theorem listLatestQuotes_nodup :
    ((listLatestQuotes coins quotes now currency).map CoinQuoteOverview.coinId).Nodup := by
  have hids : (coins.rows.filter fun c => c.status = "active").Pairwise
      fun c c' => c.coinId ≠ c'.coinId :=
    (List.pairwise_map.mp coins.unique).sublist List.filter_sublist
  refine List.pairwise_map.mpr (List.pairwise_filterMap.mpr (hids.imp ?_))
  intro c c' hne row hrow row' hrow'
  obtain ⟨q, -, rfl⟩ := Option.map_eq_some_iff.mp hrow
  obtain ⟨q', -, rfl⟩ := Option.map_eq_some_iff.mp hrow'
  exact hne

def coinIds (coins : TrackedCoinTable) : List String := coins.rows.map TrackedCoin.coinId

/-- The coin has a row with the answer of its own endpoint, and the other fields of a row are
what that answer has. -/
theorem listLatestQuotes_row (hrow : row ∈ listLatestQuotes coins quotes now currency) :
    (∃ c ∈ coins.rows, c.coinId = row.coinId ∧ c.status = "active") ∧
      getLatestQuote (coinIds coins) quotes now row.coinId currency =
        .ok ⟨row.coinId, row.vsCurrency, row.ts, row.price, row.source⟩ := by
  obtain ⟨c, hc, hactive, q, hq, rfl⟩ := mem_listLatestQuotes.mp hrow
  have hseries := (SeriesTable.mem_series.mp (currentQuote_eq_some_iff.mp hq).1.1).2.1
  refine ⟨⟨c, hc, rfl, hactive⟩, getLatestQuote_eq_ok_iff.mpr ⟨List.mem_map_of_mem hc, ?_⟩⟩
  change q.coinId = c.coinId at hseries
  rw [hq, ← hseries]

theorem exists_listLatestQuotes {c : TrackedCoin} {q : CoinQuote} (hc : c ∈ coins.rows)
    (hactive : c.status = "active")
    (hq : getLatestQuote (coinIds coins) quotes now c.coinId currency = .ok q) :
    c.coinId ∈ (listLatestQuotes coins quotes now currency).map CoinQuoteOverview.coinId := by
  have hcurrent := (getLatestQuote_eq_ok_iff.mp hq).2
  exact List.mem_map.mpr ⟨_, mem_listLatestQuotes.mpr ⟨c, hc, hactive, q, hcurrent, rfl⟩, rfl⟩

theorem getLatestQuote_toOption {coinId : String} (htracked : coinId ∈ coinIds coins) :
    (getLatestQuote (coinIds coins) quotes now coinId currency).toOption =
      currentQuote (quotes.series coinId (currency.getD "usd")) now := by
  apply Option.ext
  intro q
  rw [← and_iff_right (b := currentQuote _ now = some q) htracked, ← getLatestQuote_eq_ok_iff]
  cases getLatestQuote (coinIds coins) quotes now coinId currency <;> simp [Except.toOption]

theorem windowPage_head (r : QuotesRequest) (codec : KeysetCodec TsKey) {limit : ℤ}
    (hlimit : 1 ≤ limit) : (r.windowPage codec limit).items.head? = r.windowed.head? := by
  have hsize : (limit + 1).toNat ≠ 0 := by omega
  have hkept : limit.toNat ≠ 0 := by omega
  unfold QuotesRequest.windowPage paginate
  split_ifs
  · simp [List.head?_take, hsize, hkept]
  · simp [List.head?_take, hsize]

/-- The first page of the history begins with the current quote. -/
theorem listQuotes_head {codec : KeysetCodec TsKey} {coinId : String}
    (htracked : coinId ∈ coinIds coins) {limit : Option ℤ} (hlimit : AcceptedLimit limit) :
    ∃ page, listQuotes codec (coinIds coins) quotes now coinId ⟨currency, none, limit, none, none⟩ =
        .ok page ∧
      page.items.head? = (getLatestQuote (coinIds coins) quotes now coinId currency).toOption := by
  have hlow := (acceptedLimit_iff.mp hlimit).1
  refine ⟨_, QuotesRequest.answer_first
    ⟨coinIds coins, quotes, now, coinId, currency, none, none, htracked⟩ hlimit rfl, ?_⟩
  rw [windowPage_head _ _ hlow, getLatestQuote_toOption htracked]
  simp [QuotesRequest.windowed, windowQuotes, currentQuote, QuotesRequest.series]

/-- What the overview, the endpoint of a coin and the first page of its history say of its
current quote is the same, and the overview has one row for each active coin that has one. -/
theorem latest_quotes_agree (codec : KeysetCodec TsKey) (coins : TrackedCoinTable)
    (quotes : SeriesTable CoinQuote.key) (now : ℤ) (currency : Option String) :
    ((listLatestQuotes coins quotes now currency).map CoinQuoteOverview.coinId).Nodup ∧
      (∀ coinId, coinId ∈ (listLatestQuotes coins quotes now currency).map
          CoinQuoteOverview.coinId ↔
        (∃ c ∈ coins.rows, c.coinId = coinId ∧ c.status = "active") ∧
          ∃ q, getLatestQuote (coinIds coins) quotes now coinId currency = .ok q) ∧
      (∀ row ∈ listLatestQuotes coins quotes now currency,
        getLatestQuote (coinIds coins) quotes now row.coinId currency =
          .ok ⟨row.coinId, row.vsCurrency, row.ts, row.price, row.source⟩) ∧
      ∀ coinId ∈ coinIds coins, ∀ limit, AcceptedLimit limit →
        ∃ page, listQuotes codec (coinIds coins) quotes now coinId
            ⟨currency, none, limit, none, none⟩ = .ok page ∧
          page.items.head? =
            (getLatestQuote (coinIds coins) quotes now coinId currency).toOption := by
  refine ⟨listLatestQuotes_nodup, ?_, fun row hrow => (listLatestQuotes_row hrow).2,
    fun coinId htracked limit hlimit => listQuotes_head htracked hlimit⟩
  intro coinId
  constructor
  · intro hmem
    obtain ⟨row, hrow, rfl⟩ := List.mem_map.mp hmem
    obtain ⟨hactive, hanswer⟩ := listLatestQuotes_row hrow
    exact ⟨hactive, _, hanswer⟩
  · rintro ⟨⟨c, hc, rfl, hactive⟩, q, hq⟩
    exact exists_listLatestQuotes hc hactive hq

theorem readWith_start (r : QuotesRequest) {first : ℤ} (hstart : r.start.isSome = true) :
    r.readWith first = r.listing := if_pos (Or.inl hstart)

theorem listing_getLast? (r : QuotesRequest) {q : CoinQuote} :
    r.listing.getLast? = some q ↔ q ∈ r.listing ∧ ∀ q' ∈ r.listing, q.ts ≤ q'.ts := by
  have hsorted : Ascending (fun x : CoinQuote => OrderDual.toDual x.ts) r.listing :=
    newestFirst_sorted (filter_distinctTs _)
  exact hsorted.getLast?_eq_some_iff

/-- The baseline is the last quote of the history since a day ago, unless that is the current
one. -/
theorem baselineQuote_eq_getLast? {trackedCoins : List String} {quotes : SeriesTable CoinQuote.key}
    {now ts : ℤ} {coinId : String} {currency : Option String} (htracked : coinId ∈ trackedCoins)
    (hmicros : Micros (now - baselineWindow)) :
    baselineQuote (quotes.series coinId (currency.getD "usd")) now ts =
      (QuotesRequest.listing ⟨trackedCoins, quotes, now, coinId, currency,
        some (now - baselineWindow), none, htracked⟩).getLast?.filter fun q => q.ts < ts := by
  apply Option.ext
  intro b
  rw [baselineQuote_eq_some_iff, Option.filter_eq_some_iff, listing_getLast?]
  simp only [QuotesRequest.listing, QuotesRequest.series, tsList, mem_newestFirst,
    List.mem_filter, Option.all_none, Option.all_some, storeTimestamptz_of_micros hmicros,
    Bool.true_and, decide_eq_true_eq]
  constructor
  · rintro ⟨hb, hrecent, holder, hleast⟩
    exact ⟨⟨⟨hb, hrecent⟩, fun q hq => hleast q hq.1 hq.2⟩, holder⟩
  · rintro ⟨⟨⟨hb, hrecent⟩, hleast⟩, holder⟩
    exact ⟨hb, hrecent, holder, fun q hq hlater => hleast q ⟨hq, hlater⟩⟩

/-- The baseline of a row is the earliest quote of the last 24 hours if that is older than the
row's own, and null otherwise; a client that reads the history since a day ago, at whatever page
sizes, finds it last. -/
theorem overview_baseline (crates : CursorCrates) (coins : TrackedCoinTable)
    (quotes : SeriesTable CoinQuote.key) (now : ℤ) (currency : Option String)
    (row : CoinQuoteOverview) (hrow : row ∈ listLatestQuotes coins quotes now currency)
    (hnow : Micros now) :
    (∀ price, row.open24h = some price ↔
      ∃ q ∈ quotes.series row.coinId row.vsCurrency, q.price = price ∧
        now - baselineWindow ≤ q.ts ∧ q.ts < row.ts ∧
        ∀ q' ∈ quotes.series row.coinId row.vsCurrency, now - baselineWindow ≤ q'.ts →
          q.ts ≤ q'.ts) ∧
      ∀ limits : ℕ → Option ℤ, (∀ i, AcceptedLimit (limits i)) →
        ∃ pages, Follows (fun cursor limit page => listQuotes (tsCodec crates) (coinIds coins)
            quotes now row.coinId
            ⟨currency, cursor, limit, some (now - baselineWindow), none⟩ = .ok page)
            limits none pages ∧
          row.open24h = ((pages.flatMap Page.items).getLast?.filter fun q => q.ts < row.ts).map
            CoinQuote.price := by
  obtain ⟨c, hc, hactive, q, hq, rfl⟩ := mem_listLatestQuotes.mp hrow
  have hseries := SeriesTable.mem_series.mp (currentQuote_eq_some_iff.mp hq).1.1
  have hcurrency : q.vsCurrency = currency.getD "usd" := hseries.2.2
  simp only [hcurrency]
  constructor
  · intro price
    simp only [Option.map_eq_some_iff, baselineQuote_eq_some_iff]
    constructor
    · rintro ⟨b, ⟨hb, hrecent, holder, hleast⟩, hprice⟩
      exact ⟨b, hb, hprice, hrecent, holder, hleast⟩
    · rintro ⟨b, hb, hprice, hrecent, holder, hleast⟩
      exact ⟨b, ⟨hb, hrecent, holder, hleast⟩, hprice⟩
  · intro limits hlimits
    have hmicros : Micros (now - baselineWindow) := by
      unfold Micros baselineWindow seconds at *
      omega
    have htracked : c.coinId ∈ coinIds coins := List.mem_map_of_mem hc
    obtain ⟨pages, hitems, hpages⟩ := QuotesRequest.exists_pages
      ⟨coinIds coins, quotes, now, c.coinId, currency, some (now - baselineWindow), none,
        htracked⟩ (tsCodec crates) hlimits
    refine ⟨pages, (hpages pages).mpr rfl, ?_⟩
    rw [hitems, readWith_start _ rfl, baselineQuote_eq_getLast? htracked hmicros]

/-- Two active coins, one of them new, and one that is not active any more. -/
def overviewCoins : TrackedCoinTable where
  rows := [⟨"bitcoin", "btc", "Bitcoin", "active", 0, none, none, none⟩,
    ⟨"ethereum", "eth", "Ethereum", "active", 0, none, none, none⟩,
    ⟨"dogecoin", "doge", "Dogecoin", "error", 0, none, none, none⟩]
  unique := by decide

/-- The price of an hour ago. -/
theorem overview_baseline_june :
    ∃ q ∈ juneQuotes.quotes.series "bitcoin" "usd", q.price = 70400 ∧
      juneNoon - baselineWindow ≤ q.ts ∧ q.ts < juneNoon ∧
      ∀ q' ∈ juneQuotes.quotes.series "bitcoin" "usd", juneNoon - baselineWindow ≤ q'.ts →
        q.ts ≤ q'.ts :=
  ((overview_baseline juneCrates overviewCoins juneQuotes.quotes juneNoon none
    ⟨"bitcoin", "usd", juneNoon, 70500, some 70400, "kraken"⟩ (by decide +kernel)
    (by decide)).1 70400).mp rfl

end Overview
end CryptoCollector.Api

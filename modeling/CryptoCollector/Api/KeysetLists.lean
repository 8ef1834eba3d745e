import CryptoCollector.Api.Candles
import CryptoCollector.Api.CursorCodecs
import CryptoCollector.Api.KeysetFollow
import CryptoCollector.Models.Coin

/-!
# Keyset lists

The coin list, the market snapshots of a coin, and its candles where they are stored
at the interval asked for. Each endpoint checks its parameters, decodes the cursor,
and selects, orders and cuts one page. The conversion of the rows to the response
body is left out.
-/

namespace CryptoCollector.Api
open Models Db Foundations DateTime

/-- Where a cursor of a time series stands among the instants of a column, newest first. -/
def TsKey.stored (k : TsKey) : ℤᵒᵈ := OrderDual.toDual (storeTimestamptz k.ts)

/-- `ORDER BY ts DESC`. -/
def newestFirst {α : Type} (ts : α → ℤ) (rows : List α) : List α :=
  sortBy (fun x => OrderDual.toDual (ts x)) rows

/-- A page of a time series: `ts <= end`, `ts >= start`, `ts < cursor`, each where
given. -/
def tsPage {α : Type} (encode : TsKey → String) (ts : α → ℤ) (rows : List α) (limit : ℤ)
    (cursorTs start end_ : Option ℤ) : Page α :=
  let selected := rows.filter fun x =>
    end_.all (fun e => ts x ≤ storeTimestamptz e) &&
      start.all (fun s => storeTimestamptz s ≤ ts x) &&
      cursorTs.all fun k => ts x < storeTimestamptz k
  paginate encode ((newestFirst ts selected).take (limit + 1).toNat) limit fun x => ⟨ts x⟩

/-- All rows of a time series within the bounds, in the order of the pages. -/
def tsList {α : Type} (ts : α → ℤ) (rows : List α) (start end_ : Option ℤ) : List α :=
  newestFirst ts (rows.filter fun x =>
    end_.all (fun e => ts x ≤ storeTimestamptz e) && start.all fun s => storeTimestamptz s ≤ ts x)

section CoinList

variable {κ : Type} [LinearOrder κ] (codec : KeysetCodec CoinListKey) (collate : String → κ)
  (coins : TrackedCoinTable)

/-- `ORDER BY coin_id ASC`, under a collation. -/
def orderedCoins (rows : List TrackedCoin) : List TrackedCoin :=
  sortBy (fun c => collate c.coinId) rows

/-- The query of `list_coins` and its pagination. -/
def coinsPage (cursor : Option CoinListKey) (limit : ℤ) : Page TrackedCoin :=
  let items := match cursor with
    | none => (orderedCoins collate coins.rows).take (limit + 1).toNat
    | some after => (orderedCoins collate
        (coins.rows.filter fun c => collate after.coinId < collate c.coinId)).take
          (limit + 1).toNat
  paginate codec.encode items limit fun c => ⟨c.coinId⟩

def listCoins (cursor : Option String) (limit : Option ℤ) :
    Except ApiError (Page TrackedCoin) := do
  let limit ← (validateLimit limit).mapError .badRequest
  let cursor ← (cursor.mapM codec.decode).mapError .badRequest
  return coinsPage codec collate coins cursor limit

end CoinList

structure ListCoinMarketParams where
  vsCurrency : Option String
  cursor : Option String
  limit : Option ℤ
  start : Option ℤ
  end_ : Option ℤ
  deriving DecidableEq, Repr

def listCoinMarket (codec : KeysetCodec TsKey) (trackedCoins : List String)
    (snapshots : SeriesTable CoinMarketSnapshot.key) (coinId : String)
    (params : ListCoinMarketParams) : Except ApiError (Page CoinMarketSnapshot) := do
  let vsCurrency := resolveCurrency params.vsCurrency
  let limit ← (validateLimit params.limit).mapError .badRequest
  let cursorTs ← (params.cursor.mapM codec.decode).mapError .badRequest
  let cursorTs := cursorTs.map TsKey.ts
  ensureTracked trackedCoins coinId
  return tsPage codec.encode CoinMarketSnapshot.ts (snapshots.series coinId vsCurrency) limit
    cursorTs params.start params.end_

section Pages

variable {α : Type} {encode : TsKey → String} {ts : α → ℤ} {rows : List α}
  {start end_ : Option ℤ}

@[simp] theorem mem_newestFirst {x : α} : x ∈ newestFirst ts rows ↔ x ∈ rows := mem_sortBy _

theorem newestFirst_ascending (hmicros : ∀ x ∈ rows, Micros (ts x))
    (hdistinct : (rows.map ts).Nodup) (p : α → Bool) :
    Ascending (fun x => TsKey.stored ⟨ts x⟩) (newestFirst ts (rows.filter p)) := by
  have hts : ((rows.filter p).map ts).Nodup := hdistinct.sublist (List.filter_sublist.map ts)
  have hsorted : Ascending (fun x => OrderDual.toDual (ts x))
      (newestFirst ts (rows.filter p)) := by
    apply sortBy_ascending
    have hdual := hts.map OrderDual.toDual.injective
    rwa [List.map_map] at hdual
  refine hsorted.imp_of_mem ?_
  intro x y hx hy hlt
  have hmem : ∀ z ∈ newestFirst ts (rows.filter p), storeTimestamptz (ts z) = ts z := fun z hz =>
    storeTimestamptz_of_micros (hmicros z (List.mem_of_mem_filter (mem_newestFirst.mp hz)))
  simp only [TsKey.stored, hmem x hx, hmem y hy]
  exact hlt

theorem tsPage_eq (hmicros : ∀ x ∈ rows, Micros (ts x)) (hdistinct : (rows.map ts).Nodup)
    (cursor : Option TsKey) {limit : ℤ} (hlimit : 1 ≤ limit) :
    tsPage encode ts rows limit (cursor.map TsKey.ts) start end_ =
      keysetPage encode (fun x => ⟨ts x⟩) TsKey.stored (tsList ts rows start end_) cursor
        limit.toNat := by
  have hascending : ∀ p, Ascending (fun x => TsKey.stored ⟨ts x⟩)
      (newestFirst ts (rows.filter p)) := newestFirst_ascending hmicros hdistinct
  refine paginate_eq_keysetPage (fun x : α => (⟨ts x⟩ : TsKey)) TsKey.stored (hascending _)
    (hascending _) ?_ hlimit
  intro x
  have hcursor : x ∈ rows → ((cursor.map TsKey.ts).all (fun k => ts x < storeTimestamptz k) = true ↔
      ∀ key ∈ cursor, TsKey.stored key < TsKey.stored ⟨ts x⟩) := by
    intro hx
    cases cursor with
    | none => simp
    | some key => simp [TsKey.stored, storeTimestamptz_of_micros (hmicros x hx)]
  simp only [mem_newestFirst, List.mem_filter, Bool.and_eq_true]
  constructor
  · rintro ⟨hx, hbounds, hafter⟩
    exact ⟨⟨hx, hbounds⟩, (hcursor hx).mp hafter⟩
  · rintro ⟨⟨hx, hbounds⟩, hafter⟩
    exact ⟨hx, hbounds, (hcursor hx).mpr hafter⟩

end Pages

section CoinPages

variable {κ : Type} [LinearOrder κ] {codec : KeysetCodec CoinListKey} {collate : String → κ}
  (coins : TrackedCoinTable)

theorem orderedCoins_ascending (hcollate : Function.Injective collate) (p : TrackedCoin → Bool) :
    Ascending (fun c => collate c.coinId) (orderedCoins collate (coins.rows.filter p)) := by
  apply sortBy_ascending
  have hids : ((coins.rows.filter p).map TrackedCoin.coinId).Nodup :=
    coins.unique.sublist (List.filter_sublist.map _)
  have hranks := hids.map hcollate
  rwa [List.map_map] at hranks

theorem coinsPage_eq (hcollate : Function.Injective collate) (cursor : Option CoinListKey)
    {limit : ℤ} (hlimit : 1 ≤ limit) :
    coinsPage codec collate coins cursor limit =
      keysetPage codec.encode (fun c => ⟨c.coinId⟩) (fun key : CoinListKey => collate key.coinId)
        (orderedCoins collate coins.rows) cursor limit.toNat := by
  have hfull : Ascending (fun c => collate c.coinId) (orderedCoins collate coins.rows) := by
    simpa using orderedCoins_ascending coins hcollate fun _ => true
  cases cursor with
  | none =>
    refine paginate_eq_keysetPage (fun c : TrackedCoin => ⟨c.coinId⟩)
      (fun key : CoinListKey => collate key.coinId) hfull hfull ?_ hlimit
    simp
  | some after =>
    refine paginate_eq_keysetPage (fun c : TrackedCoin => ⟨c.coinId⟩)
      (fun key : CoinListKey => collate key.coinId) hfull
      (orderedCoins_ascending coins hcollate _) ?_ hlimit
    simp [orderedCoins]

end CoinPages

/-- The page size a request asks for. -/
def requested (limit : Option ℤ) : ℤ := limit.getD defaultLimit

/-- A limit the endpoints accept: absent, or from 1 to the maximum. -/
def AcceptedLimit (limit : Option ℤ) : Prop := validateLimit limit = .ok (requested limit)

theorem acceptedLimit_iff {limit : Option ℤ} :
    AcceptedLimit limit ↔ 1 ≤ requested limit ∧ requested limit ≤ maxLimit := by
  constructor
  · exact validateLimit_pos
  · intro h
    cases limit with
    | none => rfl
    | some n => exact if_pos h

/-- Whatever limits a client chooses among those `accepted`, following `next_cursor` from
the first page ends, in one way only, and the pages together are `full`. -/
def ReadsInOrder {α : Type} (accepted : Option ℤ → Prop)
    (answer : Option String → Option ℤ → Except ApiError (Page α)) (full : List α) : Prop :=
  ∀ limits : ℕ → Option ℤ, (∀ i, accepted (limits i)) →
    ∃ pages, pages.flatMap Page.items = full ∧
      ∀ pages', Follows (fun cursor limit page => answer cursor limit = .ok page) limits none
        pages' ↔ pages' = pages

/-- The page a function of cursor and size makes, the cursor given as text. -/
def pageAt {α K : Type} (codec : KeysetCodec K) (page : Option K → ℤ → Page α)
    (cursor : Option String) (limit : Option ℤ) : Except ApiError (Page α) := do
  let cursor ← (cursor.mapM codec.decode).mapError .badRequest
  return page cursor (requested limit)

section Endpoints

variable {α K : Type} {κ : Type*} [LinearOrder κ] {codec : KeysetCodec K} {keyFn : α → K}
  {rank : K → κ} {full : List α} {page : Option K → ℤ → Page α}

theorem mapM_decode_encode (codec : KeysetCodec K) (cursor : Option K) :
    (cursor.map codec.encode).mapM codec.decode = .ok cursor := by
  cases cursor with
  | none => rfl
  | some key =>
    change (codec.decode (codec.encode key) >>= fun key => pure (some key)) = _
    rw [codec.decode_encode]
    rfl

theorem readsInOrder_of_answers {accepted : Option ℤ → Prop}
    {answer : Option String → Option ℤ → Except ApiError (Page α)}
    (hfull : Ascending (fun x => rank (keyFn x)) full)
    (hpage : ∀ (cursor : Option K) (n : ℤ), 1 ≤ n →
      page cursor n = keysetPage codec.encode keyFn rank full cursor n.toNat)
    (haccepted : ∀ limit, accepted limit → 1 ≤ requested limit)
    (hanswer : ∀ (cursor : Option K) limit, accepted limit →
      answer (cursor.map codec.encode) limit = .ok (page cursor (requested limit))) :
    ReadsInOrder accepted answer full := by
  intro limits hlimits
  have hserves : ServesKeyset codec.encode keyFn rank full (fun limit => (requested limit).toNat)
      accepted fun cursor limit p => answer cursor limit = .ok p := by
    intro cursor limit hlimit p
    beta_reduce
    rw [hanswer cursor limit hlimit, hpage cursor _ (haccepted limit hlimit), Except.ok.injEq,
      eq_comm]
  have hpos : ∀ limit, accepted limit → 0 < (requested limit).toNat := by
    intro limit hlimit
    have hlow := haccepted limit hlimit
    omega
  simpa using exists_follows hfull hserves hpos hlimits none

theorem pageAt_encode (codec : KeysetCodec K) (page : Option K → ℤ → Page α) (cursor : Option K)
    (limit : Option ℤ) :
    pageAt codec page (cursor.map codec.encode) limit = .ok (page cursor (requested limit)) := by
  simp [pageAt, mapM_decode_encode, Except.mapError, bind, Except.bind, pure, Except.pure]

theorem pageAt_ok {limit : Option ℤ} (hlimit : AcceptedLimit limit) (codec : KeysetCodec K)
    (page : Option K → ℤ → Page α) (cursor : Option String) :
    (do
      let limit ← (validateLimit limit).mapError ApiError.badRequest
      let cursor ← (cursor.mapM codec.decode).mapError .badRequest
      return page cursor limit) = pageAt codec page cursor limit := by
  rw [hlimit]
  rfl

/-- The pages of `full` read it in order at any sizes from 1 on, and so does an endpoint
that checks the size first. -/
theorem readsInOrder_both (keyFn : α → K) (rank : K → κ)
    {answer : Option String → Option ℤ → Except ApiError (Page α)}
    (hfull : Ascending (fun x => rank (keyFn x)) full)
    (hpage : ∀ (cursor : Option K) (n : ℤ), 1 ≤ n →
      page cursor n = keysetPage codec.encode keyFn rank full cursor n.toNat)
    (hanswer : ∀ cursor limit, AcceptedLimit limit →
      answer cursor limit = pageAt codec page cursor limit) :
    ReadsInOrder AcceptedLimit answer full ∧
      ReadsInOrder (fun limit => 1 ≤ requested limit) (pageAt codec page) full := by
  constructor
  · refine readsInOrder_of_answers hfull hpage (fun limit h => (validateLimit_pos h).1) ?_
    intro cursor limit hlimit
    rw [hanswer _ _ hlimit, pageAt_encode]
  · exact readsInOrder_of_answers hfull hpage (fun _ h => h)
      fun cursor limit _ => pageAt_encode codec page cursor limit

end Endpoints

/-- A request of candles that the native path serves. -/
structure NativeRequest where
  db : Database
  now : ℤ
  coinId : String
  interval : String
  vsCurrency : Option String
  start : Option ℤ
  end_ : Option ℤ
  target : ApiInterval
  valid : validateInterval interval = .ok target
  tracked : coinId ∈ db.trackedCoins
  native : db.candles.nativeExists coinId interval (resolveCurrency vsCurrency) = true
  micros : ∀ c ∈ db.candles.rows, Micros c.ts

namespace NativeRequest

variable (r : NativeRequest)

def series : List CoinCandle :=
  r.db.candles.series r.coinId (resolveCurrency r.vsCurrency) r.interval

def candles : List CoinCandle := tsList CoinCandle.ts r.series r.start r.end_

def answer (codec : KeysetCodec TsKey) (cursor : Option String) (limit : Option ℤ) :
    Except ApiError (Page CoinCandle) :=
  listCandles codec r.db r.now r.coinId
    ⟨some r.interval, r.vsCurrency, cursor, limit, r.start, r.end_⟩

def page (codec : KeysetCodec TsKey) (cursor : Option TsKey) (limit : ℤ) : Page CoinCandle :=
  nativePage codec r.db.candles r.coinId (resolveCurrency r.vsCurrency) r.interval limit
    (cursor.map TsKey.ts) r.start r.end_

theorem answer_eq (codec : KeysetCodec TsKey) (cursor : Option String) {limit : Option ℤ}
    (hlimit : AcceptedLimit limit) :
    r.answer codec cursor limit = pageAt codec (r.page codec) cursor limit := by
  have hvalid : validateLimit limit = .ok (requested limit) := hlimit
  cases hcursor : cursor.mapM codec.decode with
  | error e =>
    simp [answer, listCandles, pageAt, r.valid, hvalid, hcursor, Except.mapError, bind,
      Except.bind]
  | ok key =>
    simp [answer, listCandles, pageAt, page, r.valid, hvalid, hcursor, ensureCoinExists,
      r.tracked, r.native, Except.mapError, bind, Except.bind, pure, Except.pure]

theorem readsInOrder (codec : KeysetCodec TsKey) :
    ReadsInOrder AcceptedLimit (r.answer codec) r.candles ∧
      ReadsInOrder (fun limit => 1 ≤ requested limit) (pageAt codec (r.page codec)) r.candles := by
  have hmicros : ∀ c ∈ r.series, Micros c.ts := fun c hc =>
    r.micros c (CandleTable.mem_series.mp hc).1
  have hdistinct : (r.series.map CoinCandle.ts).Nodup := CandleTable.series_distinctTs
  exact readsInOrder_both _ TsKey.stored (newestFirst_ascending hmicros hdistinct _)
    (fun cursor n hn => tsPage_eq hmicros hdistinct cursor hn)
    (fun cursor limit hlimit => r.answer_eq codec cursor hlimit)

end NativeRequest

structure MarketRequest where
  trackedCoins : List String
  snapshots : SeriesTable CoinMarketSnapshot.key
  coinId : String
  vsCurrency : Option String
  start : Option ℤ
  end_ : Option ℤ
  tracked : coinId ∈ trackedCoins

namespace MarketRequest

variable (r : MarketRequest)

def series : List CoinMarketSnapshot := r.snapshots.series r.coinId (resolveCurrency r.vsCurrency)

def listing : List CoinMarketSnapshot := tsList CoinMarketSnapshot.ts r.series r.start r.end_

def answer (codec : KeysetCodec TsKey) (cursor : Option String) (limit : Option ℤ) :
    Except ApiError (Page CoinMarketSnapshot) :=
  listCoinMarket codec r.trackedCoins r.snapshots r.coinId
    ⟨r.vsCurrency, cursor, limit, r.start, r.end_⟩

def page (codec : KeysetCodec TsKey) (cursor : Option TsKey) (limit : ℤ) :
    Page CoinMarketSnapshot :=
  tsPage codec.encode CoinMarketSnapshot.ts r.series limit (cursor.map TsKey.ts) r.start r.end_

theorem answer_eq (codec : KeysetCodec TsKey) (cursor : Option String) {limit : Option ℤ}
    (hlimit : AcceptedLimit limit) :
    r.answer codec cursor limit = pageAt codec (r.page codec) cursor limit := by
  have hvalid : validateLimit limit = .ok (requested limit) := hlimit
  cases hcursor : cursor.mapM codec.decode with
  | error e =>
    simp [answer, listCoinMarket, pageAt, hvalid, hcursor, Except.mapError, bind,
      Except.bind]
  | ok key =>
    simp [answer, listCoinMarket, pageAt, page, series, hvalid, hcursor, ensureTracked,
      r.tracked, Except.mapError, bind, Except.bind, pure, Except.pure]

theorem readsInOrder (codec : KeysetCodec TsKey) :
    ReadsInOrder AcceptedLimit (r.answer codec) r.listing ∧
      ReadsInOrder (fun limit => 1 ≤ requested limit) (pageAt codec (r.page codec)) r.listing := by
  have hmicros : ∀ s ∈ r.series, Micros s.ts := fun s hs => SeriesTable.series_micros hs
  have hdistinct : (r.series.map CoinMarketSnapshot.ts).Nodup :=
    SeriesTable.series_nodup (t := r.snapshots)
  exact readsInOrder_both _ TsKey.stored (newestFirst_ascending hmicros hdistinct _)
    (fun cursor n hn => tsPage_eq hmicros hdistinct cursor hn)
    (fun cursor limit hlimit => r.answer_eq codec cursor hlimit)

end MarketRequest

theorem listCoins_readsInOrder {κ : Type} [LinearOrder κ] (codec : KeysetCodec CoinListKey)
    {collate : String → κ} (hcollate : Function.Injective collate) (coins : TrackedCoinTable) :
    ReadsInOrder AcceptedLimit (listCoins codec collate coins) (orderedCoins collate coins.rows) ∧
      ReadsInOrder (fun limit => 1 ≤ requested limit)
        (pageAt codec (coinsPage codec collate coins)) (orderedCoins collate coins.rows) := by
  have hfull : Ascending (fun c => collate c.coinId) (orderedCoins collate coins.rows) := by
    simpa using orderedCoins_ascending coins hcollate fun _ => true
  refine readsInOrder_both (fun c : TrackedCoin => (⟨c.coinId⟩ : CoinListKey))
    (fun key : CoinListKey => collate key.coinId) hfull
    (fun cursor n hn => coinsPage_eq coins hcollate cursor hn) ?_
  intro cursor limit hlimit
  exact pageAt_ok hlimit codec _ cursor

def juneCoin (coinId symbol name : String) : TrackedCoin :=
  ⟨coinId, symbol, name, "active", juneNoon, none, none, none⟩

def juneCoins : TrackedCoinTable :=
  ⟨[juneCoin "ethereum" "eth" "Ethereum", juneCoin "bitcoin" "btc" "Bitcoin"], by decide⟩

def juneCandle (ts : ℤ) : CoinCandle :=
  ⟨"bitcoin", "usd", "1h", ts, 70000, 71000, 69000, 70500, none, "binance"⟩

def juneCandles : NativeRequest where
  db := ⟨["bitcoin"], ⟨[juneCandle (juneNoon - seconds 3600), juneCandle juneNoon], by decide⟩⟩
  now := juneNoon
  coinId := "bitcoin"
  interval := "1h"
  vsCurrency := some "USD"
  start := none
  end_ := some juneNoon
  target := .h1
  valid := by decide
  tracked := by decide
  native := by decide +kernel
  micros := by decide

def juneSnapshot (ts : ℤ) (price : ℚ) : CoinMarketSnapshot :=
  ⟨"bitcoin", "usd", ts, price, some 1380000000000, none, some 19712000, none, none, "coingecko"⟩

/-- The snapshots of three hours, of which two are asked for. -/
def juneMarket : MarketRequest where
  trackedCoins := ["bitcoin"]
  snapshots :=
    { rows := [juneSnapshot (juneNoon - seconds 3600) 69800, juneSnapshot juneNoon 70000,
        juneSnapshot (juneNoon - seconds 7200) 69500]
      unique := by decide
      micros := by decide }
  coinId := "bitcoin"
  vsCurrency := none
  start := some (juneNoon - seconds 3600)
  end_ := none
  tracked := by decide

end CryptoCollector.Api

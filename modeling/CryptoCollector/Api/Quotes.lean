import CryptoCollector.Api.KeysetLists

/-!
# Quotes of a coin

`GET /v1/coins/{coin_id}/quotes`. A request with neither start nor cursor is bounded
below by a window of 48 hours, and one with a cursor is not: what a client reads depends
on whether its first page fills.
-/

namespace CryptoCollector.Api
open Models Db Foundations DateTime

structure ListQuotesParams where
  vsCurrency : Option String
  cursor : Option String
  limit : Option ℤ
  start : Option ℤ
  end_ : Option ℤ
  deriving DecidableEq, Repr

/-- `interval '48 hours'`. -/
def defaultQuoteWindow : ℤ := seconds (48 * 3600)

/-- The rows with `ts <= end` and `ts >= COALESCE(end, now()) - interval '48 hours'`,
newest first. -/
def windowQuotes (rows : List CoinQuote) (now : ℤ) (end_ : Option ℤ) : List CoinQuote :=
  newestFirst CoinQuote.ts (rows.filter fun q =>
    end_.all (fun e => q.ts ≤ storeTimestamptz e) &&
      (end_.map storeTimestamptz).getD now - defaultQuoteWindow ≤ q.ts)

def listQuotes (codec : KeysetCodec TsKey) (trackedCoins : List String)
    (quotes : SeriesTable CoinQuote.key) (now : ℤ) (coinId : String)
    (params : ListQuotesParams) : Except ApiError (Page CoinQuote) := do
  let limit ← (validateLimit params.limit).mapError .badRequest
  let vsCurrency := params.vsCurrency.getD "usd"
  let cursorTs ← (params.cursor.mapM codec.decode).mapError .badRequest
  let cursorTs := cursorTs.map TsKey.ts
  ensureTracked trackedCoins coinId
  let rows := quotes.series coinId vsCurrency
  if params.start.isNone && cursorTs.isNone then
    let items := (windowQuotes rows now params.end_).take (limit + 1).toNat
    return paginate codec.encode items limit fun q => ⟨q.ts⟩
  else
    return tsPage codec.encode CoinQuote.ts rows limit cursorTs params.start params.end_

theorem mapM_decode_none {K : Type} {codec : KeysetCodec K} {cursor : Option String}
    (h : cursor.mapM codec.decode = .ok none) : cursor = none := by
  cases cursor with
  | none => rfl
  | some text =>
    change (codec.decode text >>= fun key => pure (some key)) = _ at h
    cases hdecode : codec.decode text <;> rw [hdecode] at h <;> cases h

structure QuotesRequest where
  trackedCoins : List String
  quotes : SeriesTable CoinQuote.key
  now : ℤ
  coinId : String
  vsCurrency : Option String
  start : Option ℤ
  end_ : Option ℤ
  tracked : coinId ∈ trackedCoins

namespace QuotesRequest

variable (r : QuotesRequest) {codec : KeysetCodec TsKey}

def series : List CoinQuote := r.quotes.series r.coinId (r.vsCurrency.getD "usd")

/-- A quote no later than the end asked for. -/
def upToEnd (q : CoinQuote) : Bool := r.end_.all fun e => q.ts ≤ storeTimestamptz e

/-- A quote no later than the end, and no older than 48 hours before it or before now. -/
def inWindow (q : CoinQuote) : Bool :=
  r.upToEnd q && (r.end_.map storeTimestamptz).getD r.now - defaultQuoteWindow ≤ q.ts

def listing : List CoinQuote := tsList CoinQuote.ts r.series r.start r.end_

def windowed : List CoinQuote := windowQuotes r.series r.now r.end_

/-- The quotes a client gets whose first page has room for `first` of them. -/
def readWith (first : ℤ) : List CoinQuote :=
  if r.start.isSome ∨ first < r.series.countP r.inWindow then r.listing else r.windowed

def answer (codec : KeysetCodec TsKey) (cursor : Option String) (limit : Option ℤ) :
    Except ApiError (Page CoinQuote) :=
  listQuotes codec r.trackedCoins r.quotes r.now r.coinId
    ⟨r.vsCurrency, cursor, limit, r.start, r.end_⟩

def page (codec : KeysetCodec TsKey) (cursor : Option TsKey) (limit : ℤ) : Page CoinQuote :=
  tsPage codec.encode CoinQuote.ts r.series limit (cursor.map TsKey.ts) r.start r.end_

def windowPage (codec : KeysetCodec TsKey) (limit : ℤ) : Page CoinQuote :=
  paginate codec.encode (r.windowed.take (limit + 1).toNat) limit fun q => ⟨q.ts⟩

theorem series_micros : ∀ q ∈ r.series, Micros q.ts := fun _ hq => SeriesTable.series_micros hq

theorem series_distinctTs : (r.series.map CoinQuote.ts).Nodup :=
  SeriesTable.series_nodup (t := r.quotes)

theorem listing_ascending : Ascending (fun q => TsKey.stored ⟨q.ts⟩) r.listing :=
  newestFirst_ascending r.series_micros r.series_distinctTs _

theorem answer_eq {cursor : Option String} {limit : Option ℤ} (hlimit : AcceptedLimit limit)
    (hpath : r.start.isSome ∨ cursor.isSome) :
    r.answer codec cursor limit = pageAt codec (r.page codec) cursor limit := by
  have hvalid : validateLimit limit = .ok (requested limit) := hlimit
  cases hcursor : cursor.mapM codec.decode with
  | error e =>
    simp [answer, listQuotes, pageAt, hvalid, hcursor, Except.mapError, bind, Except.bind]
  | ok key =>
    have hkeyset : ¬(r.start = none ∧ key = none) := by
      rintro ⟨hstart, rfl⟩
      rw [hstart, mapM_decode_none hcursor] at hpath
      simp at hpath
    have hbranch : (r.start.isNone && (key.map TsKey.ts).isNone) = false := by
      simpa [Bool.eq_false_iff] using hkeyset
    simp only [answer, listQuotes, pageAt, page, series, hvalid, hcursor, ensureTracked,
      r.tracked, hbranch, Except.mapError, bind, Except.bind, pure, Except.pure, if_true,
      Bool.false_eq_true, if_false]

theorem answer_first {limit : Option ℤ} (hlimit : AcceptedLimit limit) (hstart : r.start = none) :
    r.answer codec none limit = .ok (r.windowPage codec (requested limit)) := by
  have hvalid : validateLimit limit = .ok (requested limit) := hlimit
  simp [answer, listQuotes, windowPage, windowed, series, hvalid, hstart, ensureTracked,
    r.tracked, Except.mapError, bind, Except.bind, pure, Except.pure]

theorem length_windowed : r.windowed.length = r.series.countP r.inWindow := by
  rw [List.countP_eq_length_filter]
  exact (List.perm_insertionSort _ _).length_eq

theorem mem_listing {q : CoinQuote} (hstart : r.start = none) :
    q ∈ r.listing ↔ q ∈ r.series ∧ r.upToEnd q = true := by
  simp [listing, tsList, hstart, upToEnd]

theorem mem_windowed {q : CoinQuote} :
    q ∈ r.windowed ↔ q ∈ r.series ∧ r.inWindow q = true := by
  rw [windowed, windowQuotes, mem_newestFirst, List.mem_filter]
  rfl

theorem windowed_eq (hstart : r.start = none) : r.windowed = r.listing.filter r.inWindow := by
  have hascending : Ascending (fun q => TsKey.stored ⟨q.ts⟩) r.windowed :=
    newestFirst_ascending r.series_micros r.series_distinctTs _
  apply hascending.ext (r.listing_ascending.filter _)
  intro q
  rw [mem_windowed, List.mem_filter, r.mem_listing hstart]
  constructor
  · rintro ⟨hq, hwindow⟩
    have hend : r.upToEnd q = true := (Bool.and_eq_true_iff.mp hwindow).1
    exact ⟨⟨hq, hend⟩, hwindow⟩
  · rintro ⟨⟨hq, -⟩, hwindow⟩
    exact ⟨hq, hwindow⟩

theorem windowed_prefix (hstart : r.start = none) : r.windowed <+: r.listing := by
  rw [r.windowed_eq hstart]
  apply r.listing_ascending.filter_prefix
  intro q hq q' hq' hlt hwindow
  obtain ⟨hseries, hend⟩ := (r.mem_listing hstart).mp hq
  have hseries' := ((r.mem_listing hstart).mp hq').1
  have hnewer : q'.ts < q.ts := by
    simpa [TsKey.stored, storeTimestamptz_of_micros (r.series_micros q hseries),
      storeTimestamptz_of_micros (r.series_micros q' hseries')] using hlt
  simp only [inWindow, Bool.and_eq_true, decide_eq_true_eq] at hwindow ⊢
  exact ⟨hend, hwindow.2.trans hnewer.le⟩

/-- The listing is the window exactly when no quote asked for is older. -/
theorem listing_eq_windowed_iff (hstart : r.start = none) :
    r.listing = r.windowed ↔ ∀ q ∈ r.series, r.upToEnd q = true → r.inWindow q = true := by
  rw [r.windowed_eq hstart, eq_comm, List.filter_eq_self]
  constructor
  · intro h q hq hend
    exact h q ((r.mem_listing hstart).mpr ⟨hq, hend⟩)
  · intro h q hq
    obtain ⟨hseries, hend⟩ := (r.mem_listing hstart).mp hq
    exact h q hseries hend

theorem page_eq (cursor : Option TsKey) {limit : ℤ} (hlimit : 1 ≤ limit) :
    r.page codec cursor limit =
      keysetPage codec.encode (fun q => ⟨q.ts⟩) TsKey.stored r.listing cursor limit.toNat :=
  tsPage_eq r.series_micros r.series_distinctTs cursor hlimit

theorem windowPage_full {limit : ℤ} (hstart : r.start = none) (hlimit : 1 ≤ limit)
    (hfull : limit < r.series.countP r.inWindow) :
    r.windowPage codec limit = r.page codec none limit := by
  obtain ⟨older, hlisting⟩ := r.windowed_prefix hstart
  have hsize : (limit + 1).toNat = limit.toNat + 1 := by omega
  have hroom : limit.toNat + 1 ≤ r.windowed.length := by
    rw [length_windowed]
    omega
  have htake : r.windowed.take (limit.toNat + 1) = r.listing.take (limit.toNat + 1) := by
    rw [← hlisting, List.take_append_of_le_length hroom]
  rw [r.page_eq none hlimit, keysetPage, windowPage, hsize, htake, Option.map_none, after_none,
    Int.toNat_of_nonneg (by omega)]

theorem windowPage_last {limit : ℤ} (hlimit : 1 ≤ limit)
    (hroom : (r.series.countP r.inWindow : ℤ) ≤ limit) :
    r.windowPage codec limit = ⟨r.windowed, none⟩ := by
  have hlength : r.windowed.length ≤ (limit + 1).toNat := by
    rw [length_windowed]
    omega
  rw [windowPage, List.take_of_length_le hlength, paginate, if_neg]
  rw [length_windowed]
  omega

theorem readsInOrder_page (codec : KeysetCodec TsKey) :
    ReadsInOrder AcceptedLimit (pageAt codec (r.page codec)) r.listing :=
  readsInOrder_of_answers r.listing_ascending (fun cursor _ hn => r.page_eq cursor hn)
    (fun _ h => (acceptedLimit_iff.mp h).1) fun cursor limit _ => pageAt_encode codec _ cursor limit

theorem exists_pages (codec : KeysetCodec TsKey) {limits : ℕ → Option ℤ}
    (hlimits : ∀ i, AcceptedLimit (limits i)) :
    ∃ pages, pages.flatMap Page.items = r.readWith (requested (limits 0)) ∧
      ∀ pages', Follows (fun cursor limit page => r.answer codec cursor limit = .ok page) limits
        none pages' ↔ pages' = pages := by
  have hlow : 1 ≤ requested (limits 0) := (acceptedLimit_iff.mp (hlimits 0)).1
  have hlater : ∀ i next, r.answer codec (some next) (limits i) =
      pageAt codec (r.page codec) (some next) (limits i) :=
    fun i next => r.answer_eq (hlimits i) (.inr rfl)
  by_cases hlisting : r.start.isSome ∨ requested (limits 0) < r.series.countP r.inWindow
  · have hfirst : r.answer codec none (limits 0) =
        pageAt codec (r.page codec) none (limits 0) := by
      rcases Option.eq_none_or_eq_some r.start with hstart | ⟨start, hstart⟩
      · have hfull := hlisting.resolve_left (by simp [hstart])
        rw [r.answer_first (hlimits 0) hstart, r.windowPage_full hstart hlow hfull]
        exact (pageAt_encode codec (r.page codec) none (limits 0)).symm
      · exact r.answer_eq (hlimits 0) (.inl (by simp [hstart]))
    obtain ⟨pages, hitems, hpages⟩ := r.readsInOrder_page codec limits hlimits
    refine ⟨pages, by rw [hitems, readWith, if_pos hlisting], ?_⟩
    intro pages'
    rw [← hpages]
    exact follows_congr hfirst hlater pages'
  · obtain ⟨hstart, hroom⟩ := not_or.mp hlisting
    have hnone : r.start = none := by simpa using hstart
    have hanswer : r.answer codec none (limits 0) = .ok ⟨r.windowed, none⟩ := by
      rw [r.answer_first (hlimits 0) hnone, r.windowPage_last hlow (not_lt.mp hroom)]
    refine ⟨[⟨r.windowed, none⟩], by simp [readWith, hlisting], ?_⟩
    refine follows_last_iff ?_ rfl
    intro page
    rw [hanswer, Except.ok.injEq, eq_comm]

/-- Two first pages lead to the same quotes when both fill or neither does, or when no
quote asked for is older than the window. -/
theorem readWith_eq_iff {first first' : ℤ} :
    r.readWith first = r.readWith first' ↔
      r.start.isSome ∨
        (first < r.series.countP r.inWindow ↔ first' < r.series.countP r.inWindow) ∨
        ∀ q ∈ r.series, r.upToEnd q = true → r.inWindow q = true := by
  rcases Option.eq_none_or_eq_some r.start with hstart | ⟨start, hstart⟩
  · have hlisting := r.listing_eq_windowed_iff hstart
    have hwindowed := eq_comm.trans hlisting
    simp only [readWith, hstart, Option.isSome_none, Bool.false_eq_true, false_or]
    by_cases hfirst : first < r.series.countP r.inWindow <;>
      by_cases hfirst' : first' < r.series.countP r.inWindow <;>
      simp only [hfirst, hfirst', if_true, if_false, hlisting, hwindowed, true_or, false_or,
        iff_true, iff_false, not_true]
  · simp [readWith, hstart]

end QuotesRequest

/-- The quotes a client reads are the same under two choices of limits exactly when a
start is given, or its first page overflows the window under both or under neither, or
no quote asked for is older than the window. -/
theorem listQuotes_page_size_iff (crates : CursorCrates) (r : QuotesRequest)
    {limits limits' : ℕ → Option ℤ} (hlimits : ∀ i, AcceptedLimit (limits i))
    (hlimits' : ∀ i, AcceptedLimit (limits' i)) :
    ∃ pages pages',
      (∀ followed, Follows (fun cursor limit page =>
        r.answer (tsCodec crates) cursor limit = .ok page) limits none followed ↔
          followed = pages) ∧
      (∀ followed, Follows (fun cursor limit page =>
        r.answer (tsCodec crates) cursor limit = .ok page) limits' none followed ↔
          followed = pages') ∧
      (pages.flatMap Page.items = pages'.flatMap Page.items ↔
        r.start.isSome ∨
          (requested (limits 0) < r.series.countP r.inWindow ↔
            requested (limits' 0) < r.series.countP r.inWindow) ∨
          ∀ q ∈ r.series, r.upToEnd q = true → r.inWindow q = true) := by
  obtain ⟨pages, hitems, hpages⟩ := r.exists_pages (tsCodec crates) hlimits
  obtain ⟨pages', hitems', hpages'⟩ := r.exists_pages (tsCodec crates) hlimits'
  refine ⟨pages, pages', hpages, hpages', ?_⟩
  rw [hitems, hitems', r.readWith_eq_iff]

def juneQuote (ts : ℤ) (price : ℚ) : CoinQuote := ⟨"bitcoin", "usd", ts, price, "kraken"⟩

/-- Two quotes of the last hour and one three days old. -/
def juneQuotes : QuotesRequest where
  trackedCoins := ["bitcoin", "ethereum"]
  quotes :=
    { rows := [juneQuote juneNoon 70500, juneQuote (juneNoon - seconds 3600) 70400,
        juneQuote (juneNoon - seconds (72 * 3600)) 69000]
      unique := by decide
      micros := by decide }
  now := juneNoon
  coinId := "bitcoin"
  vsCurrency := none
  start := none
  end_ := none
  tracked := by decide

/-- Pages of two and pages of a hundred both hold the window at once. -/
theorem listQuotes_page_size_iff_june :
    ∃ pages pages',
      Follows (fun cursor limit page =>
        juneQuotes.answer (tsCodec juneCrates) cursor limit = .ok page)
        (fun _ => some 2) none pages ∧
      Follows (fun cursor limit page =>
        juneQuotes.answer (tsCodec juneCrates) cursor limit = .ok page)
        (fun _ => none) none pages' ∧
      pages.flatMap Page.items = pages'.flatMap Page.items := by
  obtain ⟨pages, pages', hpages, hpages', hequal⟩ :=
    listQuotes_page_size_iff juneCrates juneQuotes
      (fun _ : ℕ => (rfl : AcceptedLimit (some 2))) (fun _ : ℕ => (rfl : AcceptedLimit none))
  refine ⟨pages, pages', (hpages _).mpr rfl, (hpages' _).mpr rfl, hequal.mpr ?_⟩
  exact .inr (.inl (by decide))

/-- After a first page of one quote the client also gets the quote of three days ago,
which a first page of a hundred leaves out. -/
theorem juneQuotes_page_size :
    ¬∀ (limits limits' : ℕ → Option ℤ) (pages pages' : List (Page CoinQuote)),
      (∀ i, AcceptedLimit (limits i)) → (∀ i, AcceptedLimit (limits' i)) →
      Follows (fun cursor limit page =>
        juneQuotes.answer (tsCodec juneCrates) cursor limit = .ok page) limits none pages →
      Follows (fun cursor limit page =>
        juneQuotes.answer (tsCodec juneCrates) cursor limit = .ok page) limits' none pages' →
      pages.flatMap Page.items = pages'.flatMap Page.items := by
  intro hclaim
  have haccepted : ∀ i : ℕ, AcceptedLimit (if i = 0 then some 1 else none) := by
    intro i
    split_ifs <;> rfl
  obtain ⟨pages, hitems, hpages⟩ := juneQuotes.exists_pages (tsCodec juneCrates) haccepted
  obtain ⟨pages', hitems', hpages'⟩ :=
    juneQuotes.exists_pages (tsCodec juneCrates) (fun _ : ℕ => (rfl : AcceptedLimit none))
  have hsame := hclaim _ (fun _ => none) pages pages' haccepted (fun _ => rfl)
    ((hpages _).mpr rfl) ((hpages' _).mpr rfl)
  have hthree : (juneQuotes.readWith 1).length = 3 := by decide
  have htwo : (juneQuotes.readWith 100).length = 2 := by decide
  have hlengths := congrArg List.length hsame
  rw [hitems, hitems'] at hlengths
  exact absurd (hthree.symm.trans (hlengths.trans htwo)) (by decide)

end CryptoCollector.Api

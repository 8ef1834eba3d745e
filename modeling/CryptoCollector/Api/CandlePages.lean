import CryptoCollector.Api.Candles
import CryptoCollector.Foundations.KeysetPages

/-!
# Pages of aggregated candles

A client follows `next_cursor` from the first page of an aggregated series. A
page folds the newest source rows below its cursor, up to a row limit that can
cut a bucket in two. Positions are the epoch seconds the pages resume at.
-/

namespace CryptoCollector.Api
open Models Foundations Db DateTime

/-- A request the endpoint answers by aggregation, whatever its cursor. -/
structure AggregatedRequest where
  db : Database
  now : ℤ
  coinId : String
  interval : String
  vsCurrency : Option String
  limit : Option ℤ
  start : Option ℤ
  end_ : Option ℤ
  target : ApiInterval
  pageSize : ℤ
  sourceInterval : String
  sourceSecs : ℤ
  valid : validateInterval interval = .ok target
  bounded : validateLimit limit = .ok pageSize
  tracked : coinId ∈ db.trackedCoins
  not_native : db.candles.nativeExists coinId interval (resolveCurrency vsCurrency) = false
  selected : selectSourceInterval
    ((db.candles.intervalCoverage coinId (resolveCurrency vsCurrency)).map
      fun (interval, earliest, latest) => IntervalCoverage.mk interval earliest latest)
    target.secs start now = some sourceInterval
  parsed : intervalSecs sourceInterval = some sourceSecs

namespace AggregatedRequest

variable (r : AggregatedRequest)

def params (cursor : Option String) : ListCandlesParams :=
  ⟨some r.interval, r.vsCurrency, cursor, r.limit, r.start, r.end_⟩

def answer (codec : KeysetCodec TsKey) (cursor : Option String) :
    Except ApiError (Page CoinCandle) :=
  listCandles codec r.db r.now r.coinId (r.params cursor)

/-- All rows of the selected source interval. -/
def sourceSeries : List CoinCandle :=
  r.db.candles.series r.coinId (resolveCurrency r.vsCurrency) r.sourceInterval

/-- `aggregate_candles` at the request's intervals and clock. -/
def aggregate (rows : List CoinCandle) : List CoinCandle :=
  aggregateCandles rows r.target.secs r.sourceSecs r.now r.sourceInterval r.interval

/-- What a complete listing of the window contains. -/
def expected : List CoinCandle := retainWindow r.start r.end_ (r.aggregate r.sourceSeries)

def positionKey (position : ℤ) : TsKey := ⟨fromTimestamp position⟩

/-- The source rows the page at a position reads. -/
def fetched (position : Option ℤ) : List CoinCandle :=
  sourceRows r.db.candles r.coinId (resolveCurrency r.vsCurrency) r.sourceInterval
    (position.map fromTimestamp) (r.start.map fun s => s - seconds r.target.secs)
    (r.end_.map fun e => e + seconds r.target.secs)
    (rowCap r.pageSize r.target.secs r.sourceSecs)

def HitCap (position : Option ℤ) : Prop :=
  rowCap r.pageSize r.target.secs r.sourceSecs ≤ (r.fetched position).length

instance (position : Option ℤ) : Decidable (r.HitCap position) :=
  inferInstanceAs (Decidable (_ ≤ _))

/-- The buckets of the page's rows that lie in the window. -/
def folded (position : Option ℤ) : List CoinCandle :=
  retainWindow r.start r.end_ (r.aggregate (r.fetched position))

def pageItems (position : Option ℤ) : List CoinCandle :=
  (r.folded position).take r.pageSize.toNat

def resumeAt (position : Option ℤ) : Option ℤ :=
  if r.HitCap position ∨ r.pageSize < (r.folded position).length then
    (((r.pageItems position).getLast?.map CoinCandle.ts).or
      ((r.fetched position).getLast?.map fun c => bucketStart c.ts r.target.secs)).map timestamp
  else
    none

/-- The row limit of the page cuts a bucket the window lists, and the page
resumes at that bucket without having listed it: no bucket before it was
complete, or its rows on the near side of the cut were emitted for it. -/
def CutsBucket (position : Option ℤ) : Prop :=
  r.HitCap position ∧ ((r.folded position).length : ℤ) ≤ r.pageSize ∧
    ∃ oldest ∈ (r.fetched position).getLast?, ∃ c ∈ r.expected,
      c.ts = bucketStart oldest.ts r.target.secs ∧ c ∉ r.folded position ∧
        ∀ last ∈ (r.folded position).getLast?, last.ts = c.ts

variable {r} {position : Option ℤ}

theorem sourceSecs_pos (r : AggregatedRequest) : 0 < r.sourceSecs := by
  obtain ⟨secs, hsecs, hpos, -, -⟩ := selectSourceInterval_divides r.selected
  rw [r.parsed] at hsecs
  cases hsecs
  exact hpos

theorem sourceSecs_lt (r : AggregatedRequest) : r.sourceSecs < r.target.secs := by
  obtain ⟨secs, hsecs, -, hlt, -⟩ := selectSourceInterval_divides r.selected
  rw [r.parsed] at hsecs
  cases hsecs
  exact hlt

theorem targetSecs_pos (r : AggregatedRequest) : 0 < r.target.secs := r.target.secs_pos

theorem pageSize_pos (r : AggregatedRequest) : 1 ≤ r.pageSize := (validateLimit_pos r.bounded).1

theorem rowCap_pos (r : AggregatedRequest) : 0 < rowCap r.pageSize r.target.secs r.sourceSecs := by
  have hratio : 1 ≤ r.target.secs / r.sourceSecs :=
    (Int.le_ediv_iff_mul_le (sourceSecs_pos r)).mpr (by rw [one_mul]; exact (sourceSecs_lt r).le)
  have hsize := pageSize_pos r
  apply lt_min
  · exact mul_pos (by omega) (by omega)
  · decide

theorem sourceSeries_distinctTs (r : AggregatedRequest) : DistinctTs r.sourceSeries :=
  CandleTable.series_distinctTs

theorem sourceSeries_ofSeries (r : AggregatedRequest) :
    OfSeries r.coinId (resolveCurrency r.vsCurrency) r.sourceSeries :=
  CandleTable.series_ofSeries

theorem mem_retainWindow {start end_ : Option ℤ} {agg : List CoinCandle} {c : CoinCandle} :
    c ∈ retainWindow start end_ agg ↔
      c ∈ agg ∧ (∀ e ∈ end_, c.ts ≤ e) ∧ ∀ s ∈ start, s ≤ c.ts := by
  cases start <;> cases end_ <;> simp [retainWindow]

theorem mem_fetched {c : CoinCandle} (h : c ∈ r.fetched position) :
    c ∈ r.sourceSeries ∧ ∀ k ∈ position, c.ts < fromTimestamp k := by
  have hsorted := List.mem_of_mem_take h
  rw [mem_sortByTsDesc, List.mem_filter] at hsorted
  refine ⟨hsorted.1, ?_⟩
  intro k hk
  have hrange := hsorted.2
  rw [Option.mem_def.mp hk] at hrange
  simp only [inRange, Option.map_some, Option.all_some, Bool.and_eq_true, decide_eq_true_eq,
    storeTimestamptz_of_micros (micros_fromTimestamp k)] at hrange
  exact hrange.1.1

theorem fetched_eq_take (r : AggregatedRequest) (position : Option ℤ) :
    ∃ sorted, Ascending (fun c => OrderDual.toDual c.ts) sorted ∧
      r.fetched position = sorted.take (rowCap r.pageSize r.target.secs r.sourceSecs).toNat ∧
      ∀ c, c ∈ sorted ↔ c ∈ r.sourceSeries ∧
        inRange (position.map fromTimestamp) (r.start.map fun s => s - seconds r.target.secs)
          (r.end_.map fun e => e + seconds r.target.secs) c.ts = true := by
  have hdistinct := (sourceSeries_distinctTs r).sublist
    (List.filter_sublist (p := fun c => inRange (position.map fromTimestamp)
      (r.start.map fun s => s - seconds r.target.secs)
      (r.end_.map fun e => e + seconds r.target.secs) c.ts))
  refine ⟨_, sortByTsDesc_ascending hdistinct, rfl, ?_⟩
  intro c
  rw [mem_sortByTsDesc, List.mem_filter]

theorem fetched_ofSeries :
    OfSeries r.coinId (resolveCurrency r.vsCurrency) (r.fetched position) :=
  fun c hc => sourceSeries_ofSeries r c (mem_fetched hc).1

theorem fetched_descending (r : AggregatedRequest) (position : Option ℤ) :
    Ascending (fun c => OrderDual.toDual c.ts) (r.fetched position) := by
  obtain ⟨sorted, hsorted, htake, -⟩ := fetched_eq_take r position
  rw [htake]
  exact List.Pairwise.sublist (List.take_sublist _ _) hsorted

theorem fetched_distinctTs : DistinctTs (r.fetched position) := by
  unfold DistinctTs
  rw [List.Nodup, List.pairwise_map]
  exact (fetched_descending r position).imp fun hlt heq => ne_of_lt hlt (congrArg _ heq)

/-- The candle emitted for the bucket at `b`. -/
def candleAt (r : AggregatedRequest) (b : ℤ) (rows : List CoinCandle) : Option CoinCandle :=
  bucketCandle r.coinId (resolveCurrency r.vsCurrency) r.target.secs r.sourceSecs r.now
    r.sourceInterval r.interval b rows

def InWindow (r : AggregatedRequest) (b : ℤ) : Prop :=
  (∀ e ∈ r.end_, fromTimestamp b ≤ e) ∧ ∀ s ∈ r.start, s ≤ fromTimestamp b

theorem mem_window_iff {rows : List CoinCandle} {c : CoinCandle}
    (hseries : OfSeries r.coinId (resolveCurrency r.vsCurrency) rows) :
    c ∈ retainWindow r.start r.end_ (r.aggregate rows) ↔
      ∃ b, r.candleAt b rows = some c ∧ r.InWindow b := by
  rw [mem_retainWindow, aggregate, mem_aggregateCandles_iff hseries]
  constructor
  · rintro ⟨⟨b, hb⟩, hwindow⟩
    refine ⟨b, hb, ?_⟩
    rw [bucketCandle_ts hb] at hwindow
    exact hwindow
  · rintro ⟨b, hb, hwindow⟩
    refine ⟨⟨b, hb⟩, ?_⟩
    rw [bucketCandle_ts hb]
    exact hwindow

theorem mem_folded_iff {c : CoinCandle} :
    c ∈ r.folded position ↔ ∃ b, r.candleAt b (r.fetched position) = some c ∧ r.InWindow b :=
  mem_window_iff fetched_ofSeries

theorem mem_expected_iff {c : CoinCandle} :
    c ∈ r.expected ↔ ∃ b, r.candleAt b r.sourceSeries = some c ∧ r.InWindow b :=
  mem_window_iff (sourceSeries_ofSeries r)

theorem folded_descending (r : AggregatedRequest) (position : Option ℤ) :
    Ascending (fun c => OrderDual.toDual c.ts) (r.folded position) :=
  (aggregateCandles_descending _ _ _ _ _ _).filter _

theorem pageItems_descending (r : AggregatedRequest) (position : Option ℤ) :
    Ascending (fun c => OrderDual.toDual c.ts) (r.pageItems position) :=
  List.Pairwise.sublist (List.take_sublist _ _) (folded_descending r position)

theorem exists_fetched_of_mem_folded {c : CoinCandle} (h : c ∈ r.folded position) :
    ∃ row ∈ r.fetched position, c.ts = fromTimestamp (bucketEpoch r.target.secs row) := by
  obtain ⟨b, hb, -⟩ := mem_folded_iff.mp h
  obtain ⟨row, hrow, hbucket⟩ := exists_row_of_bucketCandle hb
  exact ⟨row, hrow, hbucket ▸ bucketCandle_ts hb⟩

theorem bucketEpoch_lt_of_fetched {row : CoinCandle} {k : ℤ} (hrow : row ∈ r.fetched position)
    (hk : k ∈ position) : bucketEpoch r.target.secs row < k := by
  rw [← fromTimestamp_lt, fromTimestamp_bucketEpoch]
  exact (bucketStart_le (targetSecs_pos r)).trans_lt ((mem_fetched hrow).2 k hk)

theorem resumeAt_cases {k : ℤ} (h : r.resumeAt position = some k) :
    (∃ last ∈ (r.pageItems position).getLast?, k = timestamp last.ts) ∨
      r.pageItems position = [] ∧
        ∃ oldest ∈ (r.fetched position).getLast?, k = bucketEpoch r.target.secs oldest := by
  unfold resumeAt at h
  split_ifs at h
  obtain ⟨ts, hts, rfl⟩ := Option.map_eq_some_iff.mp h
  cases hlast : (r.pageItems position).getLast? with
  | some last =>
    rw [hlast] at hts
    cases hts
    exact Or.inl ⟨last, rfl, rfl⟩
  | none =>
    rw [hlast, Option.map_none, Option.none_or] at hts
    obtain ⟨oldest, holdest, rfl⟩ := Option.map_eq_some_iff.mp hts
    exact Or.inr ⟨List.getLast?_eq_none_iff.mp hlast, oldest, holdest, rfl⟩

theorem exists_fetched_of_resumeAt {k : ℤ} (h : r.resumeAt position = some k) :
    ∃ row ∈ r.fetched position, k = bucketEpoch r.target.secs row := by
  rcases resumeAt_cases h with ⟨last, hlast, rfl⟩ | ⟨-, oldest, holdest, rfl⟩
  · have hmem := List.mem_of_mem_take (List.mem_of_getLast? hlast)
    obtain ⟨row, hrow, hts⟩ := exists_fetched_of_mem_folded hmem
    exact ⟨row, hrow, by rw [hts, timestamp_fromTimestamp]⟩
  · exact ⟨oldest, List.mem_of_getLast? holdest, rfl⟩

theorem timestamp_lt_of_folded {c d : CoinCandle} (hc : c ∈ r.folded position)
    (hd : d ∈ r.folded position) (hlt : d.ts < c.ts) : timestamp d.ts < timestamp c.ts := by
  obtain ⟨row, -, hrow⟩ := exists_fetched_of_mem_folded hc
  obtain ⟨row', -, hrow'⟩ := exists_fetched_of_mem_folded hd
  rw [hrow, hrow', fromTimestamp_lt] at hlt
  rwa [hrow, hrow', timestamp_fromTimestamp, timestamp_fromTimestamp]

def pages (r : AggregatedRequest) : KeysetPages fun c : CoinCandle => timestamp c.ts where
  items := r.pageItems
  next := r.resumeAt
  anchors := r.sourceSeries.map (bucketEpoch r.target.secs)
  items_beyond := by
    intro position c hc k hk
    obtain ⟨row, hrow, hts⟩ := exists_fetched_of_mem_folded (List.mem_of_mem_take hc)
    rw [hts, timestamp_fromTimestamp]
    exact bucketEpoch_lt_of_fetched hrow hk
  items_descending := by
    intro position
    apply (pageItems_descending r position).imp_of_mem
    intro c d hc hd hlt
    exact timestamp_lt_of_folded (List.mem_of_mem_take hc) (List.mem_of_mem_take hd) hlt
  next_beyond := by
    intro position k hk k' hk'
    obtain ⟨row, hrow, rfl⟩ := exists_fetched_of_resumeAt hk
    exact bucketEpoch_lt_of_fetched hrow hk'
  next_le := by
    intro position k hk c hc
    rcases resumeAt_cases hk with ⟨last, hlast, rfl⟩ | ⟨hnil, -⟩
    · have hdesc := pageItems_descending r position
      obtain ⟨front, hfront⟩ := List.getLast?_eq_some_iff.mp hlast
      rw [hfront] at hdesc hc
      rcases List.mem_append.mp hc with hc | hc
      · exact timestamp_mono ((List.pairwise_append.mp hdesc).2.2 c hc last
          (List.mem_singleton.mpr rfl)).le
      · rw [List.mem_singleton.mp hc]
    · rw [hnil] at hc
      cases hc
  next_mem := by
    intro position k hk
    obtain ⟨row, hrow, rfl⟩ := exists_fetched_of_resumeAt hk
    exact List.mem_map_of_mem (mem_fetched hrow).1

def cursorOf (codec : KeysetCodec TsKey) (position : ℤ) : String :=
  codec.encode (positionKey position)

theorem fromTimestamp_resumeAt {last : CoinCandle} (h : last ∈ r.folded position) :
    fromTimestamp (timestamp last.ts) = last.ts := by
  obtain ⟨row, -, hts⟩ := exists_fetched_of_mem_folded h
  rw [hts, timestamp_fromTimestamp]

theorem exists_last_of_more (hmore : r.pageSize < (r.folded position).length) :
    ∃ last ∈ r.folded position, (r.pageItems position).getLast? = some last := by
  have hsize := pageSize_pos r
  have hne : r.pageItems position ≠ [] := by
    apply List.ne_nil_of_length_pos
    rw [pageItems, List.length_take]
    omega
  obtain ⟨last, hlast⟩ := Option.ne_none_iff_exists'.mp (mt List.getLast?_eq_none_iff.mp hne)
  exact ⟨last, List.mem_of_mem_take (List.mem_of_getLast? hlast), hlast⟩

theorem aggregatedPage_eq (codec : KeysetCodec TsKey) (position : Option ℤ) :
    aggregatedPage codec r.db.candles r.now r.coinId (resolveCurrency r.vsCurrency) r.interval
        r.sourceInterval r.target.secs r.sourceSecs r.pageSize (position.map fromTimestamp)
        r.start r.end_ =
      ⟨r.pageItems position, (r.resumeAt position).map (cursorOf codec)⟩ := by
  have hsize := pageSize_pos r
  change (if decide (r.HitCap position) && decide (((r.folded position).length : ℤ) ≤ r.pageSize)
    then Page.mk (r.folded position) ((((r.folded position).getLast?.map CoinCandle.ts).or
      (((r.fetched position).getLast?.map CoinCandle.ts).map fun ts =>
        bucketStart ts r.target.secs)).map fun ts => codec.encode ⟨ts⟩)
    else paginate codec.encode (r.folded position) r.pageSize fun c => ⟨c.ts⟩) = _
  by_cases hfits : ((r.folded position).length : ℤ) ≤ r.pageSize
  · have hitems : r.pageItems position = r.folded position := List.take_of_length_le (by omega)
    by_cases hcap : r.HitCap position
    · simp only [hcap, hfits, decide_true, Bool.and_self, if_true, resumeAt, true_or, hitems]
      congr 1
      cases hlast : (r.folded position).getLast? with
      | some last =>
        simp only [Option.map_some, Option.some_or, cursorOf, positionKey,
          fromTimestamp_resumeAt (List.mem_of_getLast? hlast)]
      | none =>
        cases (r.fetched position).getLast? with
        | none => rfl
        | some oldest =>
          simp only [Option.map_some, Option.map_none, Option.none_or, cursorOf, positionKey,
            ← fromTimestamp_bucketEpoch, timestamp_fromTimestamp]
    · simp [hcap, paginate, resumeAt, not_lt.mpr hfits, hitems]
  · have hmore : r.pageSize < (r.folded position).length := not_le.mp hfits
    obtain ⟨last, hmem, hlast⟩ := exists_last_of_more hmore
    have hkept : ((r.folded position).take r.pageSize.toNat).getLast? = some last := hlast
    simp only [hfits, decide_false, Bool.and_false, Bool.false_eq_true, if_false, paginate, hmore,
      if_true, resumeAt, or_true, hlast, hkept, Option.map_some, Option.some_or, cursorOf,
      positionKey, fromTimestamp_resumeAt hmem]
    rfl

theorem answer_eq (codec : KeysetCodec TsKey) (position : Option ℤ) :
    r.answer codec (position.map (cursorOf codec)) =
      .ok ⟨r.pageItems position, (r.resumeAt position).map (cursorOf codec)⟩ := by
  have hdecode : (position.map (cursorOf codec)).mapM codec.decode =
      .ok (position.map positionKey) := by
    cases position with
    | none => rfl
    | some k =>
      change (codec.decode (codec.encode (positionKey k)) >>= fun key => pure (some key)) = _
      rw [codec.decode_encode]
      rfl
  have hkey : (position.map positionKey).map TsKey.ts = position.map fromTimestamp := by
    cases position <;> rfl
  rw [← aggregatedPage_eq codec position]
  simp [answer, listCandles, params, r.valid, r.bounded, hdecode, hkey, ensureCoinExists, r.tracked,
    r.not_native, r.selected, r.parsed, Except.mapError, bind, Except.bind, pure, Except.pure]

def Aligned (r : AggregatedRequest) (position : Option ℤ) : Prop :=
  ∀ k ∈ position, r.target.secs ∣ k

theorem aligned_of_visited (h : r.pages.Visited position) : r.Aligned position := by
  cases h with
  | first => simp [Aligned]
  | @resume c k _ hnext =>
    obtain ⟨row, -, rfl⟩ := exists_fetched_of_resumeAt hnext
    intro k hk
    cases hk
    exact dvd_bucketEpoch _ row

theorem inRange_of_bucket {b : ℤ} {row : CoinCandle} (haligned : r.Aligned position)
    (hb : bucketEpoch r.target.secs row = b) (hwindow : r.InWindow b)
    (hbeyond : Beyond position b) :
    inRange (position.map fromTimestamp) (r.start.map fun s => s - seconds r.target.secs)
      (r.end_.map fun e => e + seconds r.target.secs) row.ts = true := by
  have hdvd : r.target.secs ∣ b := hb ▸ dvd_bucketEpoch _ row
  obtain ⟨hlow, hhigh⟩ := (bucketEpoch_eq_iff (targetSecs_pos r) hdvd row).mp hb
  have hbefore : ∀ k ∈ position, row.ts < storeTimestamptz (fromTimestamp k) := by
    intro k hk
    rw [storeTimestamptz_of_micros (micros_fromTimestamp k),
      ← bucketEpoch_lt_boundary_iff (targetSecs_pos r) (haligned k hk), hb]
    exact hbeyond k hk
  have hfrom : ∀ s ∈ r.start, storeTimestamptz (s - seconds r.target.secs) ≤ row.ts := by
    intro s hs
    have hstored := (storeTimestamptz_spec (s - seconds r.target.secs)).2.1
    have hstart := hwindow.2 s hs
    have hpos := targetSecs_pos r
    unfold seconds at hstored ⊢
    omega
  have huntil : ∀ e ∈ r.end_, row.ts < storeTimestamptz (e + seconds r.target.secs) := by
    intro e he
    apply hhigh.trans_le
    apply le_storeTimestamptz (micros_fromTimestamp _)
    have hend := hwindow.1 e he
    unfold fromTimestamp at hend ⊢
    unfold seconds
    omega
  unfold inRange
  simp only [Bool.and_eq_true, Option.all_eq_true_iff_get]
  refine ⟨⟨?_, ?_⟩, ?_⟩
  · intro hsome
    obtain ⟨k, hk⟩ := Option.isSome_iff_exists.mp (by simpa using hsome)
    simpa [hk] using hbefore k hk
  · intro hsome
    obtain ⟨k, hk⟩ := Option.isSome_iff_exists.mp (by simpa using hsome)
    simpa [hk] using hfrom k hk
  · intro hsome
    obtain ⟨k, hk⟩ := Option.isSome_iff_exists.mp (by simpa using hsome)
    simpa [hk] using huntil k hk

theorem mem_folded_of_fetched {b : ℤ} {c : CoinCandle} (hc : r.candleAt b r.sourceSeries = some c)
    (hwindow : r.InWindow b)
    (hall : ∀ row ∈ r.sourceSeries, bucketEpoch r.target.secs row = b →
      row ∈ r.fetched position) : c ∈ r.folded position := by
  have hrows : bucketRows r.target.secs b (r.fetched position) =
      bucketRows r.target.secs b r.sourceSeries :=
    bucketRows_congr fetched_distinctTs (sourceSeries_distinctTs r)
      fun row hb => ⟨fun hrow => (mem_fetched hrow).1, fun hrow => hall row hrow hb⟩
  exact mem_folded_iff.mpr ⟨b, (bucketCandle_congr hrows).trans hc, hwindow⟩

theorem mem_fetched_of_not_hitCap {b : ℤ} {row : CoinCandle} (haligned : r.Aligned position)
    (hcap : ¬r.HitCap position) (hrow : row ∈ r.sourceSeries)
    (hb : bucketEpoch r.target.secs row = b) (hwindow : r.InWindow b)
    (hbeyond : Beyond position b) : row ∈ r.fetched position := by
  obtain ⟨sorted, -, htake, hmem⟩ := fetched_eq_take r position
  have hsorted := (hmem row).mpr ⟨hrow, inRange_of_bucket haligned hb hwindow hbeyond⟩
  have hpos := rowCap_pos r
  unfold HitCap at hcap
  rw [htake, List.length_take] at hcap
  rw [htake, List.take_of_length_le (by omega)]
  exact hsorted

/-- The rows of the buckets after the one the limit falls into are all read. -/
theorem mem_fetched_of_after_oldest {b : ℤ} {row oldest : CoinCandle}
    (haligned : r.Aligned position) (holdest : oldest ∈ r.fetched position)
    (hlt : bucketEpoch r.target.secs oldest < b) (hrow : row ∈ r.sourceSeries)
    (hb : bucketEpoch r.target.secs row = b) (hwindow : r.InWindow b)
    (hbeyond : Beyond position b) : row ∈ r.fetched position := by
  obtain ⟨sorted, hsorted, htake, hmem⟩ := fetched_eq_take r position
  have hrowSorted := (hmem row).mpr ⟨hrow, inRange_of_bucket haligned hb hwindow hbeyond⟩
  rw [htake] at holdest ⊢
  apply hsorted.mem_take_of_le hrowSorted holdest
  change oldest.ts ≤ row.ts
  have hmono := fun h : row.ts ≤ oldest.ts =>
    timestamp_mono (bucketStart_mono (targetSecs_pos r) h)
  by_contra hnot
  have hle := hmono (not_le.mp hnot).le
  unfold bucketEpoch at hb hlt
  omega

theorem kept_of_mem_folded {c : CoinCandle} (hc : c ∈ r.folded position) :
    c ∈ r.pageItems position ∨ ∃ k, r.resumeAt position = some k ∧ timestamp c.ts < k := by
  by_cases hitem : c ∈ r.pageItems position
  · exact Or.inl hitem
  · right
    have hsize := pageSize_pos r
    have hmore : r.pageSize < (r.folded position).length := by
      by_contra hfits
      apply hitem
      rw [pageItems, List.take_of_length_le (by omega)]
      exact hc
    obtain ⟨last, hmem, hlast⟩ := exists_last_of_more hmore
    have hlastItem := List.mem_of_getLast? hlast
    refine ⟨timestamp last.ts, ?_, ?_⟩
    · simp [resumeAt, hmore, hlast]
    · apply timestamp_lt_of_folded hmem hc
      by_contra hnot
      exact hitem ((folded_descending r position).mem_take_of_le hc hlastItem (not_lt.mp hnot))

theorem bucketEpoch_oldest_le {oldest row : CoinCandle}
    (holdest : oldest ∈ (r.fetched position).getLast?) (hrow : row ∈ r.fetched position) :
    bucketEpoch r.target.secs oldest ≤ bucketEpoch r.target.secs row := by
  obtain ⟨front, hfront⟩ := List.getLast?_eq_some_iff.mp holdest
  have hdesc := fetched_descending r position
  rw [hfront] at hdesc hrow
  rcases List.mem_append.mp hrow with hrow | hrow
  · have hle : oldest.ts ≤ row.ts := ((List.pairwise_append.mp hdesc).2.2 row hrow oldest
      (List.mem_singleton.mpr rfl)).le
    exact timestamp_mono (bucketStart_mono (targetSecs_pos r) hle)
  · rw [List.mem_singleton.mp hrow]

theorem oldest_le_resumeAt {oldest : CoinCandle} (hcap : r.HitCap position)
    (holdest : oldest ∈ (r.fetched position).getLast?) :
    ∃ k, r.resumeAt position = some k ∧ bucketEpoch r.target.secs oldest ≤ k := by
  obtain ⟨k, hk⟩ : ∃ k, r.resumeAt position = some k := by
    unfold resumeAt
    rw [if_pos (Or.inl hcap), Option.mem_def.mp holdest]
    cases (r.pageItems position).getLast? with
    | none => exact ⟨_, rfl⟩
    | some last => exact ⟨_, rfl⟩
  obtain ⟨row, hrow, rfl⟩ := exists_fetched_of_resumeAt hk
  exact ⟨_, hk, bucketEpoch_oldest_le holdest hrow⟩

/-- A page that resumes at the bucket of its oldest row has listed all it folded,
down to that bucket. -/
theorem folded_of_resumeAt_oldest {oldest : CoinCandle}
    (holdest : oldest ∈ (r.fetched position).getLast?)
    (hresume : r.resumeAt position = some (bucketEpoch r.target.secs oldest)) :
    ((r.folded position).length : ℤ) ≤ r.pageSize ∧
      ∀ last ∈ (r.folded position).getLast?, last.ts = bucketStart oldest.ts r.target.secs := by
  have hsize := pageSize_pos r
  have hlisted : r.folded position ⊆ r.pageItems position := by
    intro c hc
    rcases kept_of_mem_folded hc with hitem | ⟨k, hk, hlt⟩
    · exact hitem
    · obtain ⟨row, hrow, hts⟩ := exists_fetched_of_mem_folded hc
      obtain rfl : _ = k := Option.some.inj (hresume.symm.trans hk)
      have hle := bucketEpoch_oldest_le holdest hrow
      rw [hts, timestamp_fromTimestamp] at hlt
      omega
  have hfits : ((r.folded position).length : ℤ) ≤ r.pageSize := by
    have hlength := ((folded_descending r position).nodup.subperm hlisted).length_le
    rw [pageItems, List.length_take] at hlength
    omega
  refine ⟨hfits, ?_⟩
  intro last hlast
  have hitems : r.pageItems position = r.folded position := List.take_of_length_le (by omega)
  rcases resumeAt_cases hresume with ⟨last', hlast', hk⟩ | ⟨hnil, -⟩
  · rw [hitems] at hlast'
    obtain rfl : last' = last := Option.some.inj (hlast'.symm.trans hlast)
    rw [← fromTimestamp_resumeAt (List.mem_of_getLast? hlast), ← hk, fromTimestamp_bucketEpoch]
  · rw [hitems] at hnil
    rw [hnil] at hlast
    cases hlast

theorem exists_oldest (hcap : r.HitCap position) :
    ∃ oldest, oldest ∈ (r.fetched position).getLast? := by
  have hpos := rowCap_pos r
  unfold HitCap at hcap
  apply Option.ne_none_iff_exists'.mp
  rw [Ne, List.getLast?_eq_none_iff]
  intro hnil
  rw [hnil] at hcap
  simp at hcap
  omega

/-- A page keeps every candle of the window exactly when it cuts no bucket. -/
theorem keeps_iff (haligned : r.Aligned position) :
    r.pages.Keeps r.expected position ↔ ¬r.CutsBucket position := by
  constructor
  · rintro hkeeps ⟨hcap, hfits, oldest, holdest, c, hc, hts, hmissing, hlast⟩
    have hitems : r.pageItems position = r.folded position := List.take_of_length_le (by omega)
    have hoc : timestamp c.ts = bucketEpoch r.target.secs oldest := by rw [hts, bucketEpoch]
    have hbeyond : Beyond position (timestamp c.ts) := by
      intro k hk
      rw [hoc]
      exact bucketEpoch_lt_of_fetched (List.mem_of_getLast? holdest) hk
    rcases hkeeps c hc hbeyond with hitem | ⟨k, hk, hlt⟩
    · exact hmissing (hitems ▸ hitem)
    · change timestamp c.ts < k at hlt
      rcases resumeAt_cases hk with ⟨last, hmem, rfl⟩ | ⟨-, oldest', holdest', rfl⟩
      · rw [hitems] at hmem
        rw [hlast last hmem] at hlt
        exact lt_irrefl _ hlt
      · obtain rfl : oldest' = oldest := Option.some.inj (holdest'.symm.trans holdest)
        omega
  · intro hcut c hc hbeyond
    change Beyond position (timestamp c.ts) at hbeyond
    change c ∈ r.pageItems position ∨ ∃ k, r.resumeAt position = some k ∧ timestamp c.ts < k
    obtain ⟨b, hb, hwindow⟩ := mem_expected_iff.mp hc
    have hts : timestamp c.ts = b := by rw [bucketCandle_ts hb, timestamp_fromTimestamp]
    rw [hts] at hbeyond
    by_cases hfolded : c ∈ r.folded position
    · exact kept_of_mem_folded hfolded
    by_cases hcap : r.HitCap position
    · obtain ⟨oldest, holdest⟩ := exists_oldest hcap
      obtain ⟨k, hk, hle⟩ := oldest_le_resumeAt hcap holdest
      rcases lt_trichotomy (bucketEpoch r.target.secs oldest) b with hafter | hsame | hbefore
      · apply absurd (mem_folded_of_fetched hb hwindow _) hfolded
        intro row hrow hrowb
        exact mem_fetched_of_after_oldest haligned (List.mem_of_getLast? holdest) hafter hrow
          hrowb hwindow hbeyond
      · have hcts : c.ts = bucketStart oldest.ts r.target.secs := by
          rw [bucketCandle_ts hb, ← hsame, fromTimestamp_bucketEpoch]
        refine Or.inr ⟨k, hk, lt_of_le_of_ne (by omega) ?_⟩
        intro hck
        have hresume : r.resumeAt position = some (bucketEpoch r.target.secs oldest) := by
          rw [hk, ← hck, hts, hsame]
        obtain ⟨hfits, hlast⟩ := folded_of_resumeAt_oldest holdest hresume
        apply hcut ⟨hcap, hfits, oldest, holdest, c, hc, hcts, hfolded, _⟩
        intro last hmem
        rw [hlast last hmem, hcts]
      · exact Or.inr ⟨k, hk, by omega⟩
    · apply absurd (mem_folded_of_fetched hb hwindow _) hfolded
      intro row hrow hrowb
      exact mem_fetched_of_not_hitCap haligned hcap hrow hrowb hwindow hbeyond

/-- A client that follows `next_cursor` gets these pages. -/
inductive Followed (answer : Option String → Except ApiError (Page CoinCandle)) :
    Option String → List (Page CoinCandle) → Prop
  | last {cursor : Option String} {page : Page CoinCandle} :
      answer cursor = .ok page → page.nextCursor = none → Followed answer cursor [page]
  | more {cursor : Option String} {page : Page CoinCandle} {next : String}
      {pages : List (Page CoinCandle)} :
      answer cursor = .ok page → page.nextCursor = some next →
      Followed answer (some next) pages → Followed answer cursor (page :: pages)

def pageAt (r : AggregatedRequest) (codec : KeysetCodec TsKey) (position : Option ℤ) :
    Page CoinCandle :=
  ⟨r.pageItems position, (r.resumeAt position).map (cursorOf codec)⟩

theorem followed_iff (codec : KeysetCodec TsKey) (position : Option ℤ)
    {pages : List (Page CoinCandle)} :
    Followed (r.answer codec) (position.map (cursorOf codec)) pages ↔
      ∃ positions, r.pages.Served position positions ∧ pages = positions.map (r.pageAt codec) := by
  constructor
  · intro h
    generalize hcursor : position.map (cursorOf codec) = cursor at h
    induction h generalizing position with
    | last hanswer hnone =>
      rw [← hcursor, answer_eq] at hanswer
      cases hanswer
      have hstop : r.resumeAt position = none := Option.map_eq_none_iff.mp hnone
      exact ⟨[position], KeysetPages.Served.last hstop, rfl⟩
    | more hanswer hsome _ ih =>
      rw [← hcursor, answer_eq] at hanswer
      cases hanswer
      obtain ⟨k, hk, hnext⟩ := Option.map_eq_some_iff.mp hsome
      have hcursor' : (some k).map (cursorOf codec) = some _ := congrArg some hnext
      obtain ⟨positions, hserved, hpages⟩ := ih _ hcursor'
      exact ⟨position :: positions, KeysetPages.Served.more hk hserved, by rw [hpages]; rfl⟩
  · rintro ⟨positions, hserved, rfl⟩
    induction hserved with
    | last hstop =>
      exact Followed.last (answer_eq codec _) (Option.map_eq_none_iff.mpr hstop)
    | more hnext _ ih =>
      exact Followed.more (answer_eq codec _) (Option.map_eq_some_iff.mpr ⟨_, hnext, rfl⟩) ih

/-- Following the pages ends, their cursors strictly descend in time, and together
they list every candle of the window exactly once, newest first. -/
def PagesComplete (r : AggregatedRequest) (codec : KeysetCodec TsKey) : Prop :=
  ∃ pages, Followed (r.answer codec) none pages ∧
    (∃ keys : List TsKey, pages.filterMap Page.nextCursor = keys.map codec.encode ∧
      keys.Pairwise fun key key' => key'.ts < key.ts) ∧
    (∀ c ∈ r.expected, (pages.flatMap Page.items).count c = 1) ∧
    (pages.flatMap Page.items).Pairwise fun c c' => c'.ts < c.ts

/-- The pages are complete exactly when no request of the sequence has the row
limit cut the bucket it resumes at. -/
theorem pages_complete_iff (r : AggregatedRequest) (codec : KeysetCodec TsKey) :
    r.PagesComplete codec ↔ ∀ position, r.pages.Visited position → ¬r.CutsBucket position := by
  obtain ⟨positions, hserved⟩ := r.pages.exists_served none
  have hitems : (positions.map (r.pageAt codec)).flatMap Page.items =
      positions.flatMap r.pages.items := by
    rw [List.flatMap_map]
    rfl
  have hdescending : (positions.flatMap r.pages.items).Pairwise fun c c' => c'.ts < c.ts := by
    apply hserved.items_descending.imp
    intro c c' hlt
    by_contra hnot
    exact not_lt.mpr (timestamp_mono (not_lt.mp hnot)) hlt
  have hnodup : (positions.flatMap r.pages.items).Nodup := by
    apply hdescending.imp
    rintro c _ hlt rfl
    exact lt_irrefl _ hlt
  have hcursors : (positions.map (r.pageAt codec)).filterMap Page.nextCursor =
      ((positions.filterMap r.pages.next).map positionKey).map codec.encode := by
    rw [List.filterMap_map, List.map_map, List.map_filterMap]
    rfl
  have hcomplete := hserved.complete_iff r.expected
  have hkeeps : (∀ position ∈ positions, r.pages.Keeps r.expected position) ↔
      ∀ position, r.pages.Visited position → ¬r.CutsBucket position := by
    constructor
    · intro h position hvisited
      exact (keeps_iff (aligned_of_visited hvisited)).mp
        (h position ((hserved.mem_iff_visited position).mpr hvisited))
    · intro h position hmem
      have hvisited := (hserved.mem_iff_visited position).mp hmem
      exact (keeps_iff (aligned_of_visited hvisited)).mpr (h position hvisited)
  rw [← hkeeps, ← hcomplete]
  constructor
  · rintro ⟨pages, hfollowed, -, hcount, -⟩ c hc -
    obtain ⟨positions', hserved', rfl⟩ := (followed_iff codec none).mp hfollowed
    obtain rfl := hserved.unique hserved'
    have hone := hcount c hc
    rw [hitems] at hone
    exact List.count_pos_iff.mp (by omega)
  · intro hall
    refine ⟨positions.map (r.pageAt codec), (followed_iff codec none).mpr ⟨positions, hserved, rfl⟩,
      ⟨_, hcursors, ?_⟩, ?_, ?_⟩
    · apply List.pairwise_map.mpr
      apply hserved.next_descending.imp
      intro k k' hlt
      exact fromTimestamp_lt.mpr hlt
    · intro c hc
      rw [hitems]
      exact List.count_eq_one_of_mem hnodup (hall c hc (beyond_none _))
    · rw [hitems]
      exact hdescending

end AggregatedRequest

section GapHeavySeries

/-- The hour `h` of 2024-01-01 as a stored candle of bitcoin. -/
def hourCandle (h : ℤ) : CoinCandle :=
  ⟨"bitcoin", "usd", "1h", fromTimestamp (1704067200 + 3600 * h), 100, 110, 90, 105, some 1,
    "binance"⟩

/-- The hours 0 to 3, 5 to 7 and 9 to 11: of three four-hour buckets only the
oldest is complete. -/
def gapHeavyTable : CandleTable where
  rows := [0, 1, 2, 3, 5, 6, 7, 9, 10, 11].map hourCandle
  unique := by decide +kernel

/-- Four-hour candles one a page, asked for the next day. -/
def gapHeavyRequest : AggregatedRequest where
  db := ⟨["bitcoin"], gapHeavyTable⟩
  now := fromTimestamp 1704153600
  coinId := "bitcoin"
  interval := "4h"
  vsCurrency := none
  limit := some 1
  start := none
  end_ := none
  target := .h4
  pageSize := 1
  sourceInterval := "1h"
  sourceSecs := 3600
  valid := rfl
  bounded := rfl
  tracked := by decide
  not_native := by decide +kernel
  selected := by decide +kernel
  parsed := rfl

/-- The cursor of 2024-01-01T00:00:00Z, with some encoding of the other keys. -/
def gapHeavyCodec : KeysetCodec TsKey where
  encode key :=
    if key.ts = fromTimestamp 1704067200 then "eyJ0cyI6IjIwMjQtMDEtMDFUMDA6MDA6MDBaIn0"
    else String.ofList ((if 0 ≤ key.ts then '+' else '-') :: List.replicate key.ts.natAbs '1')
  decode cursor :=
    if cursor = "eyJ0cyI6IjIwMjQtMDEtMDFUMDA6MDA6MDBaIn0" then .ok ⟨fromTimestamp 1704067200⟩
    else match cursor.toList with
      | '+' :: digits => .ok ⟨digits.length⟩
      | '-' :: digits => .ok ⟨-digits.length⟩
      | _ => .error "invalid cursor: bad base64 encoding"
  decode_encode key := by
    obtain ⟨ts⟩ := key
    by_cases hts : ts = fromTimestamp 1704067200
    · simp [hts]
    · have hother : ∀ sign : Char, sign ≠ 'e' →
          String.ofList (sign :: List.replicate ts.natAbs '1') ≠
            "eyJ0cyI6IjIwMjQtMDEtMDFUMDA6MDA6MDBaIn0" := by
        intro sign hsign heq
        have hlist := congrArg String.toList heq
        rw [String.toList_ofList] at hlist
        exact hsign (List.cons.inj hlist).1
      simp only [if_neg hts]
      rcases le_or_gt 0 ts with hsign | hsign
      · rw [if_pos hsign, if_neg (hother '+' (by decide)), String.toList_ofList]
        simp only [List.length_replicate, Int.natAbs_of_nonneg hsign]
      · rw [if_neg (not_le.mpr hsign), if_neg (hother '-' (by decide)), String.toList_ofList]
        simp only [List.length_replicate, Int.ofNat_natAbs_of_nonpos hsign.le, neg_neg]

/-- The eight newest rows fill no bucket and cut the complete one: it is listed
by no page. -/
theorem gap_heavy_pages_incomplete : ¬gapHeavyRequest.PagesComplete gapHeavyCodec := by
  rintro ⟨pages, hfollowed, -, hcount, -⟩
  obtain ⟨positions, hserved, rfl⟩ :=
    (AggregatedRequest.followed_iff gapHeavyCodec none).mp hfollowed
  have hpages : gapHeavyRequest.pages.Served none [none, some 1704067200] := by
    apply KeysetPages.Served.more (k := 1704067200)
    · change gapHeavyRequest.resumeAt none = some 1704067200
      decide +kernel
    · apply KeysetPages.Served.last
      change gapHeavyRequest.resumeAt (some 1704067200) = none
      decide +kernel
  obtain rfl := hserved.unique hpages
  have hlisted : ∀ c ∈ gapHeavyRequest.expected,
      (([none, some 1704067200].map
        (gapHeavyRequest.pageAt gapHeavyCodec)).flatMap Page.items).count c = 0 := by
    have hitems : gapHeavyRequest.pageItems none ++ gapHeavyRequest.pageItems (some 1704067200) =
        [] := by
      decide +kernel
    obtain ⟨hfirst, hsecond⟩ := List.append_eq_nil_iff.mp hitems
    intro c _
    simp [AggregatedRequest.pageAt, hfirst, hsecond]
  have hexpected : gapHeavyRequest.expected ≠ [] := by decide +kernel
  obtain ⟨c, hc⟩ := List.exists_mem_of_ne_nil _ hexpected
  have hone := hcount c hc
  rw [hlisted c hc] at hone
  omega

end GapHeavySeries
end CryptoCollector.Api

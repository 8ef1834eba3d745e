import CryptoCollector.Api.CycleOverlayPages

/-!
# As-of reads and the future

Two contents of `coin_candles` that agree up to `as_of` can be told apart by an
as-of page: the interval the day closes are taken from is chosen by the span of
all its rows, those after `as_of` included. They cannot when the closes of the
two sources agree up to `as_of`.
-/

namespace CryptoCollector.Api
open Models Collectors Db Foundations DateTime

section Sources

variable {t t' : CandleTable} {coinId vsCurrency : String} {T : ℤ}

/-- The tables hold the same rows at or before `T`. -/
def AgreeUpTo (T : ℤ) (t t' : CandleTable) : Prop := ∀ c : CoinCandle, c.ts ≤ T →
  (c ∈ t.rows ↔ c ∈ t'.rows)

/-- What the loader reads up to `T` is the same in both tables: the native rows,
and where there are none the last closes of the days in the selected intervals. -/
structure SourcesAgree (t t' : CandleTable) (coinId vsCurrency : String) (T : ℤ) : Prop where
  native : ∀ c, c ∈ candlesUpTo t coinId vsCurrency "1d" (some T) ↔
    c ∈ candlesUpTo t' coinId vsCurrency "1d" (some T)
  finer : candlesUpTo t coinId vsCurrency "1d" (some T) = [] → ∀ d,
    ClosesDay (sourceCandles t coinId vsCurrency (some T)) d ↔
      ClosesDay (sourceCandles t' coinId vsCurrency (some T)) d

theorem nativeRows_eq_nil :
    nativeRows t coinId vsCurrency (some T) = [] ↔
      candlesUpTo t coinId vsCurrency "1d" (some T) = [] :=
  List.map_eq_nil_iff

theorem SourcesAgree.symm (h : SourcesAgree t t' coinId vsCurrency T) :
    SourcesAgree t' t coinId vsCurrency T := by
  refine ⟨fun c => (h.native c).symm, fun hnil d => (h.finer ?_ d).symm⟩
  rw [List.eq_nil_iff_forall_not_mem] at hnil ⊢
  intro c hc
  exact hnil c ((h.native c).mp hc)

theorem SourcesAgree.loads (h : SourcesAgree t t' coinId vsCurrency T) {daily : List DailyClose}
    (hload : LoadsDailySeries t coinId vsCurrency (some T) daily) :
    LoadsDailySeries t' coinId vsCurrency (some T) daily := by
  have hperm : (candlesUpTo t coinId vsCurrency "1d" (some T)).Perm
      (candlesUpTo t' coinId vsCurrency "1d" (some T)) :=
    (List.perm_ext_iff_of_nodup (List.Nodup.of_map _ candlesUpTo_distinctTs)
      (List.Nodup.of_map _ candlesUpTo_distinctTs)).mpr h.native
  have hrows : (nativeRows t coinId vsCurrency (some T)).Perm
      (nativeRows t' coinId vsCurrency (some T)) := hperm.map dailyClose
  unfold LoadsDailySeries at hload ⊢
  split_ifs at hload with hnil
  · have hnil' : nativeRows t' coinId vsCurrency (some T) = [] := by
      rw [hnil] at hrows
      exact List.nil_perm.mp hrows
    rw [if_pos hnil', hload, aggregateDaily_eq, aggregateDaily_eq]
    apply (lastOfDay_ascending _).ext (lastOfDay_ascending _)
    intro d
    rw [mem_lastOfDay_dailyClose sourceCandles_distinctTs,
      mem_lastOfDay_dailyClose sourceCandles_distinctTs]
    exact h.finer (nativeRows_eq_nil.mp hnil) d
  · rw [if_neg]
    · exact hload.trans hrows
    · intro hnil'
      rw [hnil'] at hrows
      exact hnil (List.perm_nil.mp hrows)

/-- All rows of the coin and currency up to `T` are of days in a halving cycle. -/
def InCycles (t : CandleTable) (coinId vsCurrency : String) (T : ℤ) : Prop :=
  ∀ interval, ∀ c ∈ candlesUpTo t coinId vsCurrency interval (some T), inCycle (dailyClose c) = true

theorem AgreeUpTo.symm (h : AgreeUpTo T t t') : AgreeUpTo T t' t := fun c hc => (h c hc).symm

theorem InCycles.closes (h : InCycles t coinId vsCurrency T) :
    ∀ d ∈ aggregateDailyFromFiner t coinId vsCurrency (some T), inCycle d = true := by
  intro d hd
  obtain ⟨c, hc, rfl, -⟩ := mem_aggregateDaily.mp hd
  unfold sourceCandles at hc
  cases hsource : widestSource t coinId vsCurrency with
  | none =>
    rw [hsource] at hc
    cases hc
  | some source =>
    rw [hsource] at hc
    exact h source c hc

theorem pgEpoch_lt_of_inCycle {c : CoinCandle} (h : inCycle (dailyClose c) = true) :
    pgEpoch < c.ts := by
  obtain ⟨a, ha⟩ := Option.isSome_iff_exists.mp h
  unfold assignCycle at ha
  split_ifs at ha with hfirst
  have hdate : halvingDates.getD 0 0 ≤ timestamp c.ts / 86400 := not_lt.mp hfirst
  have hhalving : halvingDates.getD 0 0 = 15672 := by decide
  rw [hhalving, timestamp] at hdate
  have hepoch : pgEpoch = 946684800000000000 := by rfl
  omega

/-- The bound the database compares with comes after `T` only before 2000. -/
theorem le_of_le_storeTimestamptz {s : ℤ} (hs : pgEpoch < s) (hle : s ≤ storeTimestamptz T) :
    s ≤ T := by
  unfold storeTimestamptz at hle
  by_cases hT : pgEpoch ≤ T
  · have hfloor : (T - pgEpoch).tdiv 1000 * 1000 ≤ T - pgEpoch := by
      rw [Int.tdiv_eq_ediv_of_nonneg (by omega)]
      omega
    omega
  · have hneg : (T - pgEpoch).tdiv 1000 ≤ 0 := by
      rw [← neg_sub, Int.neg_tdiv, neg_nonpos]
      exact Int.tdiv_nonneg (by omega) (by norm_num)
    omega

theorem AgreeUpTo.candlesUpTo_subset (h : AgreeUpTo T t t')
    (hcycles : InCycles t coinId vsCurrency T) {interval : String} {c : CoinCandle}
    (hc : c ∈ candlesUpTo t coinId vsCurrency interval (some T)) :
    c ∈ candlesUpTo t' coinId vsCurrency interval (some T) := by
  have hlate := pgEpoch_lt_of_inCycle (hcycles interval c hc)
  obtain ⟨hseries, hcutoff⟩ := mem_candlesUpTo.mp hc
  obtain ⟨hrow, hfields⟩ := CandleTable.mem_series.mp hseries
  have hle := le_of_le_storeTimestamptz hlate (hcutoff T rfl)
  exact mem_candlesUpTo.mpr ⟨CandleTable.mem_series.mpr ⟨(h c hle).mp hrow, hfields⟩, hcutoff⟩

end Sources
section Pages

variable {math : DecimalMath} {codec : KeysetCodec CycleOverlayKey} {t t' : CandleTable}
  {coinId : String} {vsCurrency : Option String} {T : ℤ}

/-- The pages as of `T` are the same for both tables, for every model, filter, cursor
and limit and whatever `cycle_overlay_points` holds. -/
def SamePages (math : DecimalMath) (codec : KeysetCodec CycleOverlayKey) (t t' : CandleTable)
    (coinId : String) (vsCurrency : Option String) (T : ℤ) : Prop :=
  ∀ (overlay overlay' : OverlayTable) (model : String) (cycle : Option ℤ) (cursor : Option String)
    (limit : Option ℤ) (response : Except ApiError (Option (Page CycleOverlayPoint))),
    Answers math codec t overlay coinId model
        (pageRequest vsCurrency cycle (some T) cursor limit) response ↔
      Answers math codec t' overlay' coinId model
        (pageRequest vsCurrency cycle (some T) cursor limit) response

/-- The points of some model can be computed as of `T` without a panic. -/
def Computes (math : DecimalMath) (t : CandleTable) (coinId vsCurrency : String) (T : ℤ)
    (model : ProjectionModel) : Prop :=
  ∃ daily real projected, LoadsDailySeries t coinId vsCurrency (some T) daily ∧
    computeOverlay daily = some real ∧
    projectAsOfForModel math model daily real coinId vsCurrency = some projected

theorem SamePages.symm (h : SamePages math codec t t' coinId vsCurrency T) :
    SamePages math codec t' t coinId vsCurrency T :=
  fun overlay overlay' model cycle cursor limit response =>
    (h overlay' overlay model cycle cursor limit response).symm

/-- The loader is all an as-of page sees of the tables. -/
theorem SourcesAgree.samePages (h : SourcesAgree t t' coinId (resolveCurrency vsCurrency) T) :
    SamePages math codec t t' coinId vsCurrency T := by
  intro overlay overlay' model cycle cursor limit response
  constructor
  · rintro ⟨daily, hload, rfl⟩
    refine ⟨daily, ?_, rfl⟩
    rintro _ ⟨⟩
    exact h.loads (hload T rfl)
  · rintro ⟨daily, hload, rfl⟩
    refine ⟨daily, ?_, rfl⟩
    rintro _ ⟨⟩
    exact h.symm.loads (hload T rfl)

/-- No key lies between a day and the day before it. -/
theorem no_key_between {cycle days : ℤ} {k : ℤ ×ₗ ℤ} (hlow : toLex (cycle, days - 1) < k) :
    toLex (cycle, days) ≤ k := by
  rw [Prod.Lex.le_iff]
  rcases Prod.Lex.lt_iff.mp hlow with hcycle | ⟨hcycle, hdays⟩
  · exact Or.inl hcycle
  · refine Or.inr ⟨hcycle, ?_⟩
    simp only [ofLex_toLex] at hdays ⊢
    omega

theorem mem_slicePage_dayBefore (codec : KeysetCodec CycleOverlayKey)
    {full : List CycleOverlayPoint} (h : Ascending pointOrder full)
    {p : CycleOverlayPoint} (hp : p ∈ full) :
    p ∈ (slicePage codec full (some ⟨p.cycleNumber, p.daysSinceHalving - 1⟩) 1).items := by
  have hrest : p ∈ after pointOrder full
      ((some ⟨p.cycleNumber, p.daysSinceHalving - 1⟩ : Option CycleOverlayKey).map
        CycleOverlayKey.order) := by
    refine mem_after.mpr ⟨hp, ?_⟩
    rintro _ ⟨⟩
    rw [Prod.Lex.lt_iff]
    exact Or.inr ⟨rfl, sub_one_lt p.daysSinceHalving⟩
  have hasc := after_ascending h ((some ⟨p.cycleNumber, p.daysSinceHalving - 1⟩ :
    Option CycleOverlayKey).map CycleOverlayKey.order)
  unfold slicePage
  dsimp only
  split_ifs with hmore
  · obtain ⟨first, rest, hcons⟩ := List.exists_cons_of_ne_nil (List.ne_nil_of_mem hrest)
    have hfirst : first ∈ after pointOrder full
        ((some ⟨p.cycleNumber, p.daysSinceHalving - 1⟩ : Option CycleOverlayKey).map
          CycleOverlayKey.order) := by
      rw [hcons]
      exact List.mem_cons_self
    have hle : pointOrder p ≤ pointOrder first := no_key_between ((mem_after.mp hfirst).2 _ rfl)
    rw [hcons] at hrest hasc ⊢
    rcases List.mem_cons.mp hrest with rfl | hlater
    · exact List.mem_cons_self
    · exact absurd ((List.pairwise_cons.mp hasc).1 p hlater) (not_lt.mpr hle)
  · exact hrest

theorem overlayPointToModel_injective {currency : String} :
    Function.Injective (overlayPointToModel coinId currency) := by
  intro p q h
  cases p
  cases q
  simpa [overlayPointToModel] using h

theorem loads_finer {currency : String} {daily : List DailyClose}
    (hnil : candlesUpTo t coinId currency "1d" (some T) = [])
    (hload : LoadsDailySeries t coinId currency (some T) daily) :
    daily = aggregateDailyFromFiner t coinId currency (some T) := by
  rwa [LoadsDailySeries, if_pos (nativeRows_eq_nil.mpr hnil)] at hload

theorem computeAsOfPage_eq_some {currency : String} {daily : List DailyClose}
    {cycle : Option ℤ} {cursor : Option CycleOverlayKey} {limit : ℤ} {model : ProjectionModel}
    {items : List CycleOverlayPoint} :
    computeAsOfPage math daily coinId currency cycle cursor limit model = some items ↔
      ∃ real projected, computeOverlay daily = some real ∧
        projectAsOfForModel math model daily real coinId currency = some projected ∧
        items = buildAsOfPage real projected coinId currency cycle cursor limit := by
  constructor
  · intro h
    obtain ⟨real, hreal, h⟩ := Option.bind_eq_some_iff.mp h
    obtain ⟨projected, hproject, h⟩ := Option.bind_eq_some_iff.mp h
    exact ⟨real, projected, hreal, hproject, (Option.some.inj h).symm⟩
  · rintro ⟨real, projected, hreal, hproject, rfl⟩
    exact Option.bind_eq_some_iff.mpr ⟨real, hreal,
      Option.bind_eq_some_iff.mpr ⟨projected, hproject, rfl⟩⟩

theorem mem_of_mem_paginate {α K : Type} {encode : K → String} {items : List α} {limit : ℤ}
    {keyFn : α → K} {x : α} (h : x ∈ (paginate encode items limit keyFn).items) : x ∈ items := by
  unfold paginate at h
  split_ifs at h
  · exact List.mem_of_mem_take h
  · exact h

/-- A page one table serves is computed from the other table too. -/
theorem SamePages.transfer (h : SamePages math codec t t' coinId vsCurrency T)
    {model : ProjectionModel} (limit : Option ℤ) {n : ℤ} (hlimit : validateLimit limit = .ok n)
    (cursor : Option CycleOverlayKey) {daily : List DailyClose}
    (hload : LoadsDailySeries t coinId (resolveCurrency vsCurrency) (some T) daily)
    {items : List CycleOverlayPoint}
    (hitems : computeAsOfPage math daily coinId (resolveCurrency vsCurrency) none cursor n model =
      some items) :
    ∃ daily' real' projected',
      LoadsDailySeries t' coinId (resolveCurrency vsCurrency) (some T) daily' ∧
      computeOverlay daily' = some real' ∧
      projectAsOfForModel math model daily' real' coinId (resolveCurrency vsCurrency) =
        some projected' ∧
      ∀ p ∈ (paginate codec.encode items n pointKey).items, ∃ q ∈ real' ++ projected',
        overlayPointToModel coinId (resolveCurrency vsCurrency) q = p := by
  have hanswer : Answers math codec t KeyedTable.empty coinId model.asStr
      (pageRequest vsCurrency none (some T) (cursor.map codec.encode) limit)
      (.ok (some (paginate codec.encode items n pointKey))) := by
    rw [pageRequest, answers_asOf_iff hlimit]
    exact ⟨daily, hload, by rw [hitems, Option.map_some]⟩
  rw [h KeyedTable.empty KeyedTable.empty, pageRequest, answers_asOf_iff hlimit] at hanswer
  obtain ⟨daily', hload', hresponse⟩ := hanswer
  obtain ⟨items', hitems', hpage⟩ := Option.map_eq_some_iff.mp (Except.ok.inj hresponse).symm
  obtain ⟨real', projected', hreal', hproject', rfl⟩ := computeAsOfPage_eq_some.mp hitems'
  refine ⟨daily', real', projected', hload', hreal', hproject', ?_⟩
  intro p hp
  rw [← hpage] at hp
  have hlisted := (mem_sortBy _).mp (List.mem_of_mem_take (mem_of_mem_paginate hp))
  exact List.mem_map.mp (List.mem_filter.mp hlisted).1

theorem SamePages.closes_subset (h : SamePages math codec t t' coinId vsCurrency T)
    {model : ProjectionModel}
    (hcomputes : Computes math t coinId (resolveCurrency vsCurrency) T model)
    (hnil : candlesUpTo t coinId (resolveCurrency vsCurrency) "1d" (some T) = [])
    (hnil' : candlesUpTo t' coinId (resolveCurrency vsCurrency) "1d" (some T) = []) :
    ∀ d ∈ aggregateDailyFromFiner t coinId (resolveCurrency vsCurrency) (some T),
      inCycle d = true →
      d ∈ aggregateDailyFromFiner t' coinId (resolveCurrency vsCurrency) (some T) := by
  obtain ⟨daily, real, projected, hload, hreal, hproject⟩ := hcomputes
  obtain rfl := loads_finer hnil hload
  intro d hd hcycle
  obtain ⟨p, hp, rfl⟩ := List.mem_map.mp
    ((computeOverlay_dayCloses hreal).mem_iff.mpr (List.mem_filter.mpr ⟨hd, hcycle⟩))
  have hpoints := points_nodup (inCycle_dates_nodup aggregateDaily_dates_nodup) hreal hproject
  have hlisted : overlayPointToModel coinId (resolveCurrency vsCurrency) p ∈ listing none
      ((real ++ projected).map (overlayPointToModel coinId (resolveCurrency vsCurrency))) :=
    mem_listing.mpr ⟨List.mem_map_of_mem (List.mem_append_left _ hp), by simp⟩
  have hshown := mem_slicePage_dayBefore codec (listing_ascending hpoints) hlisted
  rw [← paginate_orderedPage hpoints le_rfl] at hshown
  obtain ⟨daily', real', projected', hload', hreal', hproject', hserved⟩ :=
    h.transfer (some 1) rfl _ hload (computeAsOfPage_eq_some.mpr
      ⟨real, projected, hreal, hproject, rfl⟩)
  obtain ⟨q, hq, hqp⟩ := hserved _ hshown
  obtain rfl := overlayPointToModel_injective hqp
  obtain ⟨c, -, hof⟩ := computeOverlay_realOf hreal hp
  rcases List.mem_append.mp hq with hq | hq
  · have hclose := (computeOverlay_dayCloses hreal').mem_iff.mp (List.mem_map_of_mem hq)
    rw [loads_finer hnil' hload'] at hclose
    exact (List.mem_filter.mp hclose).1
  · have hflag : q.projected = true := by
      rcases projectAsOf_projects hproject' with rfl | ⟨today, -, hfrom⟩
      · cases hq
      · exact hfrom.projected q hq
    rw [hof.observed] at hflag
    cases hflag

theorem SamePages.computes (h : SamePages math codec t t' coinId vsCurrency T)
    {model : ProjectionModel}
    (hcomputes : Computes math t coinId (resolveCurrency vsCurrency) T model) :
    Computes math t' coinId (resolveCurrency vsCurrency) T model := by
  obtain ⟨daily, real, projected, hload, hreal, hproject⟩ := hcomputes
  obtain ⟨daily', real', projected', hload', hreal', hproject', -⟩ :=
    h.transfer none rfl none hload (computeAsOfPage_eq_some.mpr
      ⟨real, projected, hreal, hproject, rfl⟩)
  exact ⟨daily', real', projected', hload', hreal', hproject'⟩

/-- Pages as of `T` are the same when the sources agree up to `T`. Where the rows up
to `T` are of days in a halving cycle, and some model's points can be computed, they
are the same only then. -/
theorem as_of_pages_agree_iff (hagree : AgreeUpTo T t t') (math : DecimalMath)
    (codec : KeysetCodec CycleOverlayKey) (coinId : String) (vsCurrency : Option String) :
    (SourcesAgree t t' coinId (resolveCurrency vsCurrency) T →
        SamePages math codec t t' coinId vsCurrency T) ∧
      (InCycles t coinId (resolveCurrency vsCurrency) T →
        InCycles t' coinId (resolveCurrency vsCurrency) T →
        (∃ model, Computes math t coinId (resolveCurrency vsCurrency) T model) →
        (SamePages math codec t t' coinId vsCurrency T ↔
          SourcesAgree t t' coinId (resolveCurrency vsCurrency) T)) := by
  refine ⟨SourcesAgree.samePages, ?_⟩
  rintro hcycles hcycles' ⟨model, hcomputes⟩
  refine ⟨?_, SourcesAgree.samePages⟩
  intro hsame
  have hnative : ∀ c, c ∈ candlesUpTo t coinId (resolveCurrency vsCurrency) "1d" (some T) ↔
      c ∈ candlesUpTo t' coinId (resolveCurrency vsCurrency) "1d" (some T) := fun c =>
    ⟨hagree.candlesUpTo_subset hcycles, hagree.symm.candlesUpTo_subset hcycles'⟩
  refine ⟨hnative, ?_⟩
  intro hnil d
  have hnil' : candlesUpTo t' coinId (resolveCurrency vsCurrency) "1d" (some T) = [] := by
    rw [List.eq_nil_iff_forall_not_mem] at hnil ⊢
    exact fun c hc => hnil c ((hnative c).mpr hc)
  rw [← mem_aggregateDaily, ← mem_aggregateDaily]
  constructor
  · intro hd
    exact hsame.closes_subset hcomputes hnil hnil' d hd (hcycles.closes d hd)
  · intro hd
    exact hsame.symm.closes_subset (hsame.computes hcomputes) hnil' hnil d hd
      (hcycles'.closes d hd)

end Pages
section Lookahead

/-- A row of BTC/USD in an interval shorter than a day. -/
def btcCandle (interval : String) (ts : ℤ) (close : ℚ) : CoinCandle :=
  ⟨"bitcoin", "usd", interval, fromTimestamp ts, close, close, close, close, none, "binance"⟩

/-- Two days of five-minute rows and one of hourly rows. -/
def midnightRows : CandleTable where
  rows := [btcCandle "5m" 1719792000 60000, btcCandle "5m" 1719878400 61000,
    btcCandle "1h" 1719878400 61000]
  unique := by decide

/-- A row of a later day besides. -/
def withLater (later : CoinCandle) (h : later ∉ midnightRows.rows ∧
    ((midnightRows.rows ++ [later]).map CoinCandle.key).Nodup) : CandleTable :=
  ⟨midnightRows.rows ++ [later], h.2⟩

def laterFiveMinutes : CandleTable := withLater (btcCandle "5m" 1722470400 64000) (by decide)

/-- The hourly rows now reach further than the five-minute ones. -/
def laterHour : CandleTable := withLater (btcCandle "1h" 1722470400 64000) (by decide)

/-- 2024-07-03T00:00:00Z. -/
def beforeLater : ℤ := fromTimestamp 1719964800

theorem agreeUpTo_withLater {later : CoinCandle} {h} (hlater : beforeLater < later.ts) :
    AgreeUpTo beforeLater midnightRows (withLater later h) := by
  intro c hc
  constructor
  · exact List.mem_append_left _
  · intro hmem
    rcases List.mem_append.mp hmem with hrow | hnew
    · exact hrow
    · rw [List.mem_singleton.mp hnew] at hc
      exact absurd hc (not_le.mpr hlater)

theorem inCycles_of_rows {t : CandleTable} {coinId vsCurrency : String} {T : ℤ}
    (h : ∀ c ∈ t.rows, inCycle (dailyClose c) = true) : InCycles t coinId vsCurrency T := by
  intro interval c hc
  exact h c (CandleTable.mem_series.mp (mem_candlesUpTo.mp hc).1).1

theorem midnightRows_computes :
    Computes exactMath midnightRows "bitcoin" (resolveCurrency none) beforeLater .replay := by
  refine ⟨aggregateDailyFromFiner midnightRows "bitcoin" "usd" (some beforeLater),
    (computeOverlay (aggregateDailyFromFiner midnightRows "bitcoin" "usd"
      (some beforeLater))).getD [], [], ?_⟩
  decide +kernel

/-- A later five-minute row changes nothing: the source stays the same. -/
theorem as_of_pages_agree_later_five_minutes :
    SamePages exactMath unaryCodec midnightRows laterFiveMinutes "bitcoin" none beforeLater ∧
      (SamePages exactMath unaryCodec midnightRows laterFiveMinutes "bitcoin" none beforeLater ↔
        SourcesAgree midnightRows laterFiveMinutes "bitcoin" (resolveCurrency none)
          beforeLater) := by
  have hsources : SourcesAgree midnightRows laterFiveMinutes "bitcoin" (resolveCurrency none)
      beforeLater := by
    have hnone : candlesUpTo midnightRows "bitcoin" (resolveCurrency none) "1d"
        (some beforeLater) = [] := by decide +kernel
    have hnone' : candlesUpTo laterFiveMinutes "bitcoin" (resolveCurrency none) "1d"
        (some beforeLater) = [] := by decide +kernel
    have hsame : sourceCandles midnightRows "bitcoin" (resolveCurrency none) (some beforeLater) =
        sourceCandles laterFiveMinutes "bitcoin" (resolveCurrency none) (some beforeLater) := by
      decide +kernel
    exact ⟨fun c => by rw [hnone, hnone'], fun _ d => by rw [hsame]⟩
  have hagree : AgreeUpTo beforeLater midnightRows laterFiveMinutes :=
    agreeUpTo_withLater (by decide)
  obtain ⟨henough, hexact⟩ := as_of_pages_agree_iff hagree exactMath unaryCodec "bitcoin" none
  exact ⟨henough hsources, hexact (inCycles_of_rows (by decide +kernel))
    (inCycles_of_rows (by decide +kernel)) ⟨.replay, midnightRows_computes⟩⟩

/-- A later hourly row takes the first day off the page: the day closes now come from
the hourly rows, which did not cover it. -/
theorem as_of_page_sees_later_hour :
    ¬∀ (math : DecimalMath) (codec : KeysetCodec CycleOverlayKey) (t t' : CandleTable)
        (coinId : String) (vsCurrency : Option String) (T : ℤ),
      AgreeUpTo T t t' → SamePages math codec t t' coinId vsCurrency T := by
  intro hall
  have hagree : AgreeUpTo beforeLater midnightRows laterHour := agreeUpTo_withLater (by decide)
  have hsame := hall exactMath unaryCodec midnightRows laterHour "bitcoin" none beforeLater hagree
  have hshown := hsame.closes_subset midnightRows_computes (by decide +kernel) (by decide +kernel)
    ⟨NaiveDate.fromYmd 2024 7 1, 60000⟩ (by decide +kernel) (by decide +kernel)
  revert hshown
  decide +kernel

end Lookahead
end CryptoCollector.Api

import CryptoCollector.Api.CandleRefolds
import CryptoCollector.Foundations.CheckedSums
import CryptoCollector.Foundations.Partial
import CryptoCollector.Foundations.ScaledRounding

/-!
# Volumes in decimals

`aggregate_candles` with the addition of `Decimal`: a sum of volumes that is not
representable is rounded, and one that is out of range stops the call. Prices are only
compared, so a bucket has the prices of its rows whatever becomes of its volume.
-/

namespace CryptoCollector.Api.Decimal
open Models Foundations DateTime

section Definitions

variable (adder : CheckedAdd ℚ)

/-- `fold_volume`; no result where the sum overflows. -/
def foldVolume (volumes : List (Option ℚ)) : Option (Option ℚ) :=
  if volumes.all Option.isSome then (adder.sum (volumes.filterMap id)).map some else some none

/-- The candle of one bucket, whose rows ascend in time. -/
def foldBucket (coinId vsCurrency targetInterval aggSource : String) (g : Group ℤ CoinCandle) :
    Option CoinCandle := do
  let volume ← foldVolume adder (g.items.map CoinCandle.volume)
  return { Api.foldBucket coinId vsCurrency targetInterval aggSource g with volume := volume }

/-- `aggregate_candles`; no result where a sum overflows. -/
def aggregateCandles (source : List CoinCandle) (targetSecs sourceSecs now : ℤ)
    (sourceIntervalLabel targetInterval : String) : Option (List CoinCandle) :=
  match sortByTs source with
  | [] => some []
  | first :: rest => do
    let bucketMap := groupBy (bucketEpoch targetSecs) (first :: rest)
    let kept := bucketMap.filter fun g => !isDropped targetSecs sourceSecs now g
    let result ← kept.mapM (foldBucket adder first.coinId first.vsCurrency targetInterval
      ("aggregated:" ++ sourceIntervalLabel))
    return sortByTsDesc result

/-- The volumes of rows, in the order of time. -/
def volumesInTime (items : List CoinCandle) : List ℚ :=
  (sortByTs items).filterMap CoinCandle.volume

/-- The candle that the rows of a bucket amount to, its volume added up in the order of time. -/
structure IsFoldOf (items : List CoinCandle) (c : CoinCandle) : Prop extends PricesOf items c where
  volume_sum : (∀ row ∈ items, row.volume ≠ none) →
    ∃ total, adder.sum (volumesInTime items) = some total ∧ c.volume = some total
  volume_null : (∃ row ∈ items, row.volume = none) → c.volume = none

/-- Every row has a volume and their sum overflows. -/
def SumFails (items : List CoinCandle) : Prop :=
  (∀ row ∈ items, row.volume ≠ none) ∧ adder.sum (volumesInTime items) = none

/-- In every bucket that is emitted with a volume no running total has to be rounded. -/
def VolumesFit (targetSecs sourceSecs now : ℤ) (source : List CoinCandle) : Prop :=
  ∀ b, targetSecs ∣ b → Emitted targetSecs sourceSecs now b source →
    (∀ row ∈ inBucket targetSecs b source, row.volume ≠ none) →
      adder.TotalsFit (volumesInTime (inBucket targetSecs b source))

end Definitions

variable {adder : CheckedAdd ℚ}

section Volumes

variable {items : List CoinCandle} {v : Option ℚ}

theorem foldVolume_of_some (h : ∀ row ∈ items, row.volume ≠ none) :
    foldVolume adder (items.map CoinCandle.volume) =
      (adder.sum (items.filterMap CoinCandle.volume)).map some := by
  have hall : (items.map CoinCandle.volume).all Option.isSome = true := by
    simpa [Option.isSome_iff_ne_none] using h
  rw [foldVolume, if_pos hall, List.filterMap_map]
  rfl

theorem foldVolume_of_none (h : ∃ row ∈ items, row.volume = none) :
    foldVolume adder (items.map CoinCandle.volume) = some none := by
  obtain ⟨row, hrow, hnone⟩ := h
  have hnot : ¬(items.map CoinCandle.volume).all Option.isSome = true := by
    simp only [List.all_eq_true, List.mem_map, forall_exists_index, and_imp, not_forall]
    exact ⟨row.volume, row, hrow, rfl, by simp [hnone]⟩
  rw [foldVolume, if_neg hnot]

theorem foldVolume_eq_none_iff :
    foldVolume adder (items.map CoinCandle.volume) = none ↔
      (∀ row ∈ items, row.volume ≠ none) ∧
        adder.sum (items.filterMap CoinCandle.volume) = none := by
  by_cases hnull : ∃ row ∈ items, row.volume = none
  · have hsome : ¬∀ row ∈ items, row.volume ≠ none := by
      push Not
      exact hnull
    simp [foldVolume_of_none hnull, hsome]
  · push Not at hnull
    rw [foldVolume_of_some hnull, Option.map_eq_none_iff]
    exact (and_iff_right hnull).symm

/-- Where the running totals fit nothing is rounded. -/
theorem foldVolume_of_totalsFit
    (h : (∀ row ∈ items, row.volume ≠ none) →
      adder.TotalsFit (items.filterMap CoinCandle.volume)) :
    foldVolume adder (items.map CoinCandle.volume) =
      some (Api.foldVolume (items.map CoinCandle.volume)) := by
  by_cases hnull : ∃ row ∈ items, row.volume = none
  · rw [foldVolume_of_none hnull, Api.foldVolume_of_none hnull]
  · push Not at hnull
    rw [foldVolume_of_some hnull, CheckedAdd.sum_of_totalsFit (h hnull),
      Api.foldVolume_of_some hnull]
    rfl

end Volumes

section Buckets

variable {coinId vsCurrency targetInterval aggSource : String} {targetSecs b : ℤ}
  {rows : List CoinCandle} {g : Group ℤ CoinCandle} {c : CoinCandle}

theorem foldBucket_eq_some_iff :
    foldBucket adder coinId vsCurrency targetInterval aggSource g = some c ↔
      ∃ volume, foldVolume adder (g.items.map CoinCandle.volume) = some volume ∧
        c = { Api.foldBucket coinId vsCurrency targetInterval aggSource g with
          volume := volume } := by
  rw [foldBucket]
  constructor
  · intro h
    obtain ⟨volume, hvolume, hc⟩ := Option.bind_eq_some_iff.mp h
    exact ⟨volume, hvolume, (Option.some.inj hc).symm⟩
  · rintro ⟨volume, hvolume, rfl⟩
    exact Option.bind_eq_some_iff.mpr ⟨volume, hvolume, rfl⟩

theorem foldBucket_eq_none_iff :
    foldBucket adder coinId vsCurrency targetInterval aggSource g = none ↔
      foldVolume adder (g.items.map CoinCandle.volume) = none := by
  rw [foldBucket]
  constructor
  · intro h
    by_contra hsome
    obtain ⟨volume, hvolume⟩ := Option.ne_none_iff_exists'.mp hsome
    rw [hvolume] at h
    cases h
  · intro h
    rw [h]
    rfl

theorem bucketRows_eq_sortByTs (hpos : 0 < targetSecs) (hb : targetSecs ∣ b)
    (hdistinct : DistinctTs rows) :
    bucketRows targetSecs b rows = sortByTs (inBucket targetSecs b rows) := by
  have hbucket : DistinctTs (inBucket targetSecs b rows) :=
    hdistinct.sublist List.filter_sublist
  apply (bucketRows_ascending hdistinct targetSecs b).ext (sortByTs_ascending hbucket)
  intro c
  rw [mem_sortByTs, mem_inBucket_iff hpos hb, mem_bucketRows]

theorem isFoldOf_of_foldBucket (hpos : 0 < targetSecs) (hb : targetSecs ∣ b)
    (hdistinct : DistinctTs rows) (hg : bucketGroup targetSecs b rows = some g)
    (h : foldBucket adder coinId vsCurrency targetInterval aggSource g = some c) :
    IsFoldOf adder (inBucket targetSecs b rows) c := by
  obtain ⟨volume, hvolume, rfl⟩ := foldBucket_eq_some_iff.mp h
  have hitems : g.items = sortByTs (inBucket targetSecs b rows) :=
    (bucketGroup_items hg).trans (bucketRows_eq_sortByTs hpos hb hdistinct)
  have hmem : ∀ row, row ∈ g.items ↔ row ∈ inBucket targetSecs b rows := by
    intro row
    rw [hitems, mem_sortByTs]
  have hasc : Ascending CoinCandle.ts g.items := by
    rw [hitems]
    exact sortByTs_ascending (hdistinct.sublist List.filter_sublist)
  have hperm : g.items.Perm (inBucket targetSecs b rows) := by
    rw [bucketGroup_items hg]
    exact bucketRows_perm hpos hb
  have hprices := pricesOf_foldBucket coinId vsCurrency targetInterval aggSource hasc
  refine ⟨PricesOf.perm (hprices.relabel ?_) hperm, ?_, ?_⟩
  · rfl
  · intro hsome
    rw [foldVolume_of_some fun row hrow => hsome row ((hmem row).mp hrow), hitems] at hvolume
    obtain ⟨total, htotal, rfl⟩ := Option.map_eq_some_iff.mp hvolume
    exact ⟨total, htotal, rfl⟩
  · rintro ⟨row, hrow, hnull⟩
    rw [foldVolume_of_none ⟨row, (hmem row).mpr hrow, hnull⟩] at hvolume
    exact (Option.some.inj hvolume).symm

theorem ts_of_foldBucket
    (h : foldBucket adder coinId vsCurrency targetInterval aggSource g = some c) :
    c.ts = fromTimestamp g.key := by
  obtain ⟨volume, -, rfl⟩ := foldBucket_eq_some_iff.mp h
  rfl

end Buckets

section Aggregate

variable {targetSecs sourceSecs now b : ℤ} {label targetInterval : String}
  {source source' out : List CoinCandle} {c : CoinCandle} {g : Group ℤ CoinCandle}

/-- The buckets that are emitted. -/
def keptGroups (targetSecs sourceSecs now : ℤ) (source : List CoinCandle) :
    List (Group ℤ CoinCandle) :=
  (groupBy (bucketEpoch targetSecs) (sortByTs source)).filter
    fun g => !isDropped targetSecs sourceSecs now g

theorem mem_keptGroups_iff :
    g ∈ keptGroups targetSecs sourceSecs now source ↔
      bucketGroup targetSecs g.key source = some g ∧
        isDropped targetSecs sourceSecs now g = false := by
  rw [keptGroups, List.mem_filter, bucketGroup_eq_some_iff, Bool.not_eq_true']
  simp

theorem dvd_key_of_mem_keptGroups (hg : g ∈ keptGroups targetSecs sourceSecs now source) :
    targetSecs ∣ g.key := by
  have hgroup := (bucketGroup_eq_some_iff.mp (mem_keptGroups_iff.mp hg).1).2
  have hitems := (mem_groupBy_iff.mp hgroup)
  have hfirst : g.first ∈ g.items := List.mem_cons_self
  rw [← hitems] at hfirst
  have hkey : bucketEpoch targetSecs g.first = g.key := by simpa using (List.mem_filter.mp hfirst).2
  exact hkey ▸ dvd_bucketEpoch targetSecs g.first

theorem items_of_mem_keptGroups (htarget : 0 < targetSecs) (hdistinct : DistinctTs source)
    (hg : g ∈ keptGroups targetSecs sourceSecs now source) :
    g.items = sortByTs (inBucket targetSecs g.key source) := by
  rw [bucketGroup_items (mem_keptGroups_iff.mp hg).1]
  exact bucketRows_eq_sortByTs htarget (dvd_key_of_mem_keptGroups hg) hdistinct

theorem emitted_iff (hsource : 0 < sourceSecs) (htarget : 0 < targetSecs)
    (hdvd : sourceSecs ∣ targetSecs) (hb : targetSecs ∣ b) (haligned : AlignedTo sourceSecs source)
    (hdistinct : DistinctTs source) :
    Emitted targetSecs sourceSecs now b source ↔
      ∃ g ∈ keptGroups targetSecs sourceSecs now source, g.key = b := by
  rw [Emitted, ← bucketGroup_ne_none_iff htarget hb, Option.ne_none_iff_exists']
  constructor
  · rintro ⟨⟨g, hg⟩, hkeep⟩
    obtain rfl := (bucketGroup_eq_some_iff.mp hg).1
    rw [← isDropped_eq_false_iff hsource htarget hdvd hb haligned hdistinct hg] at hkeep
    exact ⟨g, mem_keptGroups_iff.mpr ⟨hg, hkeep⟩, rfl⟩
  · rintro ⟨g, hg, rfl⟩
    obtain ⟨hgroup, hkeep⟩ := mem_keptGroups_iff.mp hg
    rw [isDropped_eq_false_iff hsource htarget hdvd hb haligned hdistinct hgroup] at hkeep
    exact ⟨⟨g, hgroup⟩, hkeep⟩

theorem aggregateCandles_eq (hne : source ≠ []) :
    ∃ first ∈ source, (∀ row ∈ source, first.ts ≤ row.ts) ∧
      aggregateCandles adder source targetSecs sourceSecs now label targetInterval =
        ((keptGroups targetSecs sourceSecs now source).mapM (foldBucket adder first.coinId
          first.vsCurrency targetInterval ("aggregated:" ++ label))).map sortByTsDesc := by
  cases hsort : sortByTs source with
  | nil => exact absurd (sortByTs_eq_nil_iff.mp hsort) hne
  | cons first rest =>
    refine ⟨first, mem_sortByTs.mp (hsort ▸ List.mem_cons_self), ?_, ?_⟩
    · exact le_of_sortByTs_eq_cons hsort
    · rw [aggregateCandles, keptGroups, hsort]
      exact Option.map_eq_bind.symm

theorem distinctTs_of_mapM {coinId vsCurrency aggSource : String} {result : List CoinCandle}
    (h : (keptGroups targetSecs sourceSecs now source).mapM
      (foldBucket adder coinId vsCurrency targetInterval aggSource) = some result) :
    DistinctTs result := by
  have hts := map_eq_of_mapM (fun g _ c hc => ts_of_foldBucket hc) h
  have hgroups : Ascending Group.key (keptGroups targetSecs sourceSecs now source) :=
    (groupBy_ascending (bucketEpoch targetSecs) (sortByTs source)).filter _
  rw [DistinctTs, hts, List.Nodup, List.pairwise_map]
  exact hgroups.imp fun hlt => (fromTimestamp_lt.mpr hlt).ne

/-- Whatever is returned has the prices, the order and the buckets of the rows. -/
theorem foldedTo_of_aggregateCandles (hsource : 0 < sourceSecs) (htarget : 0 < targetSecs)
    (hdvd : sourceSecs ∣ targetSecs) (haligned : AlignedTo sourceSecs source)
    (hdistinct : DistinctTs source)
    (h : aggregateCandles adder source targetSecs sourceSecs now label targetInterval =
      some out) : FoldedTo (IsFoldOf adder) targetSecs sourceSecs now source out := by
  by_cases hne : source = []
  · subst hne
    obtain rfl : [] = out := Option.some.inj h
    refine ⟨List.Pairwise.nil, fun b _ => ?_, by simp⟩
    simp [Emitted, inBucket]
  · obtain ⟨first, -, -, heq⟩ := aggregateCandles_eq hne
    rw [heq] at h
    obtain ⟨result, hresult, rfl⟩ := Option.map_eq_some_iff.mp h
    refine ⟨sortByTsDesc_ascending (distinctTs_of_mapM hresult), fun b hb => ?_, fun c hc => ?_⟩
    · rw [emitted_iff hsource htarget hdvd hb haligned hdistinct]
      simp only [mem_sortByTsDesc]
      constructor
      · rintro ⟨c, hc, hts⟩
        obtain ⟨g, hg, hfold⟩ := exists_entry_of_mapM hresult hc
        exact ⟨g, hg, fromTimestamp_inj.mp ((ts_of_foldBucket hfold).symm.trans hts)⟩
      · rintro ⟨g, hg, rfl⟩
        obtain ⟨c, hc, hfold⟩ := exists_result_of_mapM hresult hg
        exact ⟨c, hc, ts_of_foldBucket hfold⟩
    · obtain ⟨g, hg, hfold⟩ := exists_entry_of_mapM hresult (mem_sortByTsDesc.mp hc)
      have hb := dvd_key_of_mem_keptGroups hg
      exact ⟨g.key, hb, ts_of_foldBucket hfold, isFoldOf_of_foldBucket htarget hb hdistinct
        (mem_keptGroups_iff.mp hg).1 hfold⟩

theorem aggregateCandles_eq_none_iff (hsource : 0 < sourceSecs) (htarget : 0 < targetSecs)
    (hdvd : sourceSecs ∣ targetSecs) (haligned : AlignedTo sourceSecs source)
    (hdistinct : DistinctTs source) :
    aggregateCandles adder source targetSecs sourceSecs now label targetInterval = none ↔
      ∃ b, targetSecs ∣ b ∧ Emitted targetSecs sourceSecs now b source ∧
        SumFails adder (inBucket targetSecs b source) := by
  by_cases hne : source = []
  · subst hne
    simp [aggregateCandles, Emitted, inBucket, sortByTs, sortBy]
  · obtain ⟨first, -, -, heq⟩ := aggregateCandles_eq hne
    rw [heq, Option.map_eq_none_iff, mapM_eq_none_iff]
    have hfails : ∀ g ∈ keptGroups targetSecs sourceSecs now source,
        foldBucket adder first.coinId first.vsCurrency targetInterval ("aggregated:" ++ label) g =
          none ↔ SumFails adder (inBucket targetSecs g.key source) := by
      intro g hg
      rw [foldBucket_eq_none_iff, foldVolume_eq_none_iff,
        items_of_mem_keptGroups htarget hdistinct hg, SumFails, volumesInTime]
      simp only [mem_sortByTs]
    constructor
    · rintro ⟨g, hg, hnone⟩
      have hb := dvd_key_of_mem_keptGroups hg
      exact ⟨g.key, hb, (emitted_iff hsource htarget hdvd hb haligned hdistinct).mpr ⟨g, hg, rfl⟩,
        (hfails g hg).mp hnone⟩
    · rintro ⟨b, hb, hemitted, hsum⟩
      obtain ⟨g, hg, rfl⟩ := (emitted_iff hsource htarget hdvd hb haligned hdistinct).mp hemitted
      exact ⟨g, hg, (hfails g hg).mpr hsum⟩

/-- Where no running total has to be rounded the fold is that of exact volumes. -/
theorem aggregateCandles_of_volumesFit (label targetInterval : String) (hsource : 0 < sourceSecs)
    (htarget : 0 < targetSecs) (hdvd : sourceSecs ∣ targetSecs)
    (haligned : AlignedTo sourceSecs source) (hdistinct : DistinctTs source)
    (hfit : VolumesFit adder targetSecs sourceSecs now source) :
    aggregateCandles adder source targetSecs sourceSecs now label targetInterval =
      some (Api.aggregateCandles source targetSecs sourceSecs now label targetInterval) := by
  cases hsort : sortByTs source with
  | nil => rw [aggregateCandles, Api.aggregateCandles, hsort]
  | cons first rest =>
    have hfolds : ∀ g ∈ keptGroups targetSecs sourceSecs now source,
        foldBucket adder first.coinId first.vsCurrency targetInterval ("aggregated:" ++ label) g =
          some (Api.foldBucket first.coinId first.vsCurrency targetInterval
            ("aggregated:" ++ label) g) := by
      intro g hg
      have hb := dvd_key_of_mem_keptGroups hg
      have hitems := items_of_mem_keptGroups htarget hdistinct hg
      refine foldBucket_eq_some_iff.mpr ⟨_, foldVolume_of_totalsFit fun hsome => ?_, rfl⟩
      rw [hitems] at hsome ⊢
      apply hfit g.key hb
        ((emitted_iff hsource htarget hdvd hb haligned hdistinct).mpr ⟨g, hg, rfl⟩)
      simpa only [mem_sortByTs] using hsome
    rw [keptGroups, hsort] at hfolds
    rw [aggregateCandles, Api.aggregateCandles, hsort]
    dsimp only
    rw [mapM_eq_some_map hfolds]
    rfl

theorem aggregateCandles_perm (hdistinct : DistinctTs source) (hperm : source.Perm source') :
    aggregateCandles adder source' targetSecs sourceSecs now label targetInterval =
      aggregateCandles adder source targetSecs sourceSecs now label targetInterval := by
  rw [aggregateCandles, aggregateCandles, sortByTs_eq_of_perm hdistinct hperm]

theorem labels_of_aggregateCandles
    (h : aggregateCandles adder source targetSecs sourceSecs now label targetInterval = some out)
    (hc : c ∈ out) : c.interval = targetInterval ∧ c.source = "aggregated:" ++ label ∧
      ∃ first ∈ source, (∀ row ∈ source, first.ts ≤ row.ts) ∧ c.coinId = first.coinId ∧
        c.vsCurrency = first.vsCurrency := by
  by_cases hne : source = []
  · subst hne
    obtain rfl : [] = out := Option.some.inj h
    cases hc
  · obtain ⟨first, hfirst, hearliest, heq⟩ := aggregateCandles_eq hne
    rw [heq] at h
    obtain ⟨result, hresult, rfl⟩ := Option.map_eq_some_iff.mp h
    obtain ⟨g, -, hfold⟩ := exists_entry_of_mapM hresult (mem_sortByTsDesc.mp hc)
    obtain ⟨volume, -, rfl⟩ := foldBucket_eq_some_iff.mp hfold
    exact ⟨rfl, rfl, first, hfirst, hearliest, rfl, rfl⟩

/-- `aggregate_candles`: which buckets it emits, what their candles are, in which order
they come, and when a sum of volumes stops it. -/
theorem aggregateCandles_meets_spec (adder : CheckedAdd ℚ) (source : List CoinCandle)
    (targetSecs sourceSecs now : ℤ) (label targetInterval : String) (hsource : 0 < sourceSecs)
    (htarget : 0 < targetSecs) (hdvd : sourceSecs ∣ targetSecs)
    (haligned : AlignedTo sourceSecs source) (hdistinct : DistinctTs source) :
    (aggregateCandles adder source targetSecs sourceSecs now label targetInterval = none ↔
      ∃ b, targetSecs ∣ b ∧ Emitted targetSecs sourceSecs now b source ∧
        SumFails adder (inBucket targetSecs b source)) ∧
      (∀ out,
        aggregateCandles adder source targetSecs sourceSecs now label targetInterval = some out →
          FoldedTo (IsFoldOf adder) targetSecs sourceSecs now source out ∧
            ∀ c ∈ out, c.interval = targetInterval ∧ c.source = "aggregated:" ++ label ∧
              ∃ first ∈ source, (∀ row ∈ source, first.ts ≤ row.ts) ∧
                c.coinId = first.coinId ∧ c.vsCurrency = first.vsCurrency) ∧
      (VolumesFit adder targetSecs sourceSecs now source → ∃ out,
        aggregateCandles adder source targetSecs sourceSecs now label targetInterval = some out ∧
          FoldedTo Api.IsFoldOf targetSecs sourceSecs now source out) ∧
      ∀ source', source.Perm source' →
        aggregateCandles adder source' targetSecs sourceSecs now label targetInterval =
          aggregateCandles adder source targetSecs sourceSecs now label targetInterval := by
  refine ⟨aggregateCandles_eq_none_iff hsource htarget hdvd haligned hdistinct, ?_, ?_, ?_⟩
  · intro out hout
    exact ⟨foldedTo_of_aggregateCandles hsource htarget hdvd haligned hdistinct hout,
      fun c hc => labels_of_aggregateCandles hout hc⟩
  · intro hfit
    exact ⟨_, aggregateCandles_of_volumesFit label targetInterval hsource htarget hdvd haligned
        hdistinct hfit,
      aggregateCandles_foldedTo now label targetInterval hsource htarget hdvd haligned hdistinct⟩
  · intro source' hperm
    exact aggregateCandles_perm hdistinct hperm

end Aggregate

section Scaled

variable {limit maxScale s : ℕ} {targetSecs sourceSecs now : ℤ} {source : List CoinCandle}

/-- Volumes of one scale whose total is representable are added exactly in every bucket. -/
theorem volumesFit_of_atScale (hs : s ≤ maxScale)
    (hvolumes : ∀ v ∈ source.filterMap CoinCandle.volume, AtScale s v)
    (hsum : (source.filterMap CoinCandle.volume).sum * 10 ^ s < limit) :
    VolumesFit (scaledAdd limit maxScale) targetSecs sourceSecs now source := by
  intro b _ _ _
  have hperm : (volumesInTime (inBucket targetSecs b source)).Perm
      ((inBucket targetSecs b source).filterMap CoinCandle.volume) :=
    (List.perm_insertionSort _ _).filterMap _
  have hsub : ((inBucket targetSecs b source).filterMap CoinCandle.volume).Sublist
      (source.filterMap CoinCandle.volume) := List.filter_sublist.filterMap _
  have hle : (volumesInTime (inBucket targetSecs b source)).sum ≤
      (source.filterMap CoinCandle.volume).sum := by
    rw [hperm.sum_eq]
    exact hsub.sum_le_sum fun v hv => (hvolumes v hv).1
  apply totalsFit_of_atScale hs
  · intro v hv
    exact hvolumes v (hsub.subset (hperm.subset hv))
  · exact (mul_le_mul_of_nonneg_right hle (by positivity)).trans_lt hsum

end Scaled

/-- The addition of `Decimal`: mantissas of 96 bits, up to 28 digits behind the point. -/
def decimalAdd : CheckedAdd ℚ := scaledAdd (2 ^ 96) 28

/-- An hour candle from `k` half hours, with the given high, low and volume. -/
def halfHour (k : ℤ) (high low : ℚ) (volume : Option ℚ) : CoinCandle where
  coinId := "bitcoin"
  vsCurrency := "usd"
  interval := "30m"
  ts := fromTimestamp (k * 1800)
  openPrice := low
  high := high
  low := low
  close := high
  volume := volume
  source := "binance"

/-- Half hours around the epoch, out of order and with a gap. -/
def halfHours : List CoinCandle :=
  [halfHour 1 7 5 (some 2), halfHour (-2) 4 2 (some 1), halfHour 3 9 8 none,
    halfHour 0 6 4 (some 3)]

theorem halfHours_volumesFit :
    VolumesFit decimalAdd 3600 1800 (fromTimestamp 5400) halfHours :=
  volumesFit_of_atScale (Nat.zero_le 28) (by decide +kernel) (by decide +kernel)

theorem halfHours_meet_spec :
    aggregateCandles decimalAdd halfHours 3600 1800 (fromTimestamp 5400) "30m" "1h" ≠ none ∧
      (∃ out,
        aggregateCandles decimalAdd halfHours 3600 1800 (fromTimestamp 5400) "30m" "1h" =
          some out ∧ FoldedTo Api.IsFoldOf 3600 1800 (fromTimestamp 5400) halfHours out ∧
            out.map (fun c => (c.ts, c.high, c.low, c.volume)) =
              [(fromTimestamp 3600, 9, 8, none), (fromTimestamp 0, 7, 4, some 5)]) ∧
      aggregateCandles decimalAdd halfHours.reverse 3600 1800 (fromTimestamp 5400) "30m" "1h" =
        aggregateCandles decimalAdd halfHours 3600 1800 (fromTimestamp 5400) "30m" "1h" := by
  obtain ⟨-, -, hexact, hperm⟩ := aggregateCandles_meets_spec decimalAdd halfHours 3600 1800
    (fromTimestamp 5400) "30m" "1h" (by decide) (by decide) (by decide) (by decide) (by decide)
  obtain ⟨out, hout, hfolded⟩ := hexact halfHours_volumesFit
  have hvalues : (aggregateCandles decimalAdd halfHours 3600 1800 (fromTimestamp 5400) "30m"
      "1h").map (List.map fun c => (c.ts, c.high, c.low, c.volume)) =
        some [(fromTimestamp 3600, 9, 8, none), (fromTimestamp 0, 7, 4, some 5)] := by
    decide +kernel
  rw [hout] at hvalues
  exact ⟨by rw [hout]; exact Option.some_ne_none out,
    ⟨out, hout, hfolded, Option.some.inj hvalues⟩, hperm _ (List.reverse_perm _).symm⟩

/-- Two full hours whose first volume leaves no place for digits behind the point. -/
def hugeHalfHours : List CoinCandle :=
  [halfHour 0 2 1 (some (7 * 10 ^ 28)), halfHour 1 3 1 (some 0), halfHour 2 4 2 (some (2 / 5)),
    halfHour 3 5 3 (some (2 / 5))]

theorem hugeHalfHours_volume :
    (aggregateCandles decimalAdd hugeHalfHours 7200 1800 (fromTimestamp 7200) "30m" "2h").map
      (List.map fun c => (c.ts, c.volume)) = some [(fromTimestamp 0, some (7 * 10 ^ 28))] := by
  decide +kernel

/-- The volume of the bucket is not the sum of its volumes, and a larger one has no candle. -/
theorem hugeHalfHours_rounded :
    AlignedTo 1800 hugeHalfHours ∧ DistinctTs hugeHalfHours ∧
      (¬∃ out, aggregateCandles decimalAdd hugeHalfHours 7200 1800 (fromTimestamp 7200) "30m"
        "2h" = some out ∧ FoldedTo Api.IsFoldOf 7200 1800 (fromTimestamp 7200) hugeHalfHours out) ∧
      aggregateCandles decimalAdd
        [halfHour 0 2 1 (some (5 * 10 ^ 28)), halfHour 1 2 1 (some (5 * 10 ^ 28))] 3600 1800
          (fromTimestamp 3600) "30m" "1h" = none := by
  refine ⟨by decide, by decide, ?_, by decide +kernel⟩
  rintro ⟨out, hout, hfolded⟩
  have hvalues := hugeHalfHours_volume
  rw [hout, Option.map_some, Option.some_inj] at hvalues
  obtain ⟨c, rest, rfl⟩ : ∃ c rest, out = c :: rest := by
    cases out with
    | nil => cases hvalues
    | cons c rest => exact ⟨c, rest, rfl⟩
  obtain ⟨hc, -⟩ := List.cons.inj hvalues
  obtain ⟨hts, hvolume⟩ := Prod.mk.inj hc
  obtain ⟨b, -, hb, hfold⟩ := hfolded.folds c List.mem_cons_self
  obtain rfl : b = 0 := fromTimestamp_inj.mp (hb.symm.trans hts)
  have hall : ∀ row ∈ inBucket 7200 0 hugeHalfHours, row.volume ≠ none := by decide
  have hsum := hfold.volume_sum hall
  rw [hvolume] at hsum
  have hexact : (inBucket 7200 0 hugeHalfHours).filterMap CoinCandle.volume =
      [7 * 10 ^ 28, 0, 2 / 5, 2 / 5] := by decide +kernel
  rw [hexact] at hsum
  norm_num at hsum

end CryptoCollector.Api.Decimal

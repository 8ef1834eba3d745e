import CryptoCollector.Api.CycleOverlay
import CryptoCollector.Api.KeysetFollow
import CryptoCollector.Collectors.ProjectionBands

/-!
# Pages of the cycle overlay

The table path and the as-of path select, sort and cut their points alike, so a
page of either is a slice of one ascending list. After a recompute the two lists
are the same, and the pages a client follows on one path are those of the other.
-/

namespace CryptoCollector.Api
open Models Collectors Db Foundations DateTime

/-- The points a listing with the `cycle` filter consists of. -/
def listing (cycle : Option ℤ) (points : List CycleOverlayPoint) : List CycleOverlayPoint :=
  sortBy pointOrder (points.filter fun p => cycle.all fun c => p.cycleNumber = c)

/-- The page after a cursor of an ascending list of points. -/
def slicePage (codec : KeysetCodec CycleOverlayKey) (full : List CycleOverlayPoint)
    (cursor : Option CycleOverlayKey) (limit : ℤ) : Page CycleOverlayPoint :=
  let rest := after pointOrder full (cursor.map CycleOverlayKey.order)
  if limit < rest.length then
    ⟨rest.take limit.toNat,
      (rest.take limit.toNat).getLast?.map fun p => codec.encode (pointKey p)⟩
  else ⟨rest, none⟩

section Slices

variable {codec : KeysetCodec CycleOverlayKey} {points : List CycleOverlayPoint}
  {cycle : Option ℤ} {cursor : Option CycleOverlayKey} {limit : ℤ}

theorem mem_listing {p : CycleOverlayPoint} :
    p ∈ listing cycle points ↔ p ∈ points ∧ ∀ c ∈ cycle, p.cycleNumber = c := by
  cases cycle <;> simp [listing]

theorem listing_ascending (h : (points.map pointOrder).Nodup) :
    Ascending pointOrder (listing cycle points) :=
  sortBy_ascending _ (h.sublist (List.filter_sublist.map pointOrder))

theorem orderedPage_eq (h : (points.map pointOrder).Nodup) :
    orderedPage cycle cursor limit points =
      (after pointOrder (listing cycle points) (cursor.map CycleOverlayKey.order)).take
        (limit + 1).toNat := by
  have hselected : sortBy pointOrder (points.filter (inPage cycle cursor)) =
      after pointOrder (listing cycle points) (cursor.map CycleOverlayKey.order) := by
    apply (sortBy_ascending _ (h.sublist (List.filter_sublist.map pointOrder))).ext
      (after_ascending (listing_ascending h) _)
    intro p
    rw [mem_sortBy, List.mem_filter, mem_after, mem_listing]
    cases cycle <;> cases cursor <;> simp [inPage, and_assoc]
  rw [orderedPage, hselected]

theorem paginate_orderedPage (h : (points.map pointOrder).Nodup) (hlimit : 1 ≤ limit) :
    paginate codec.encode (orderedPage cycle cursor limit points) limit pointKey =
      slicePage codec (listing cycle points) cursor limit := by
  rw [orderedPage_eq h]
  unfold paginate slicePage
  generalize after pointOrder (listing cycle points) (cursor.map CycleOverlayKey.order) = rest
  dsimp only
  have hlength : limit < ((rest.take (limit + 1).toNat).length : ℤ) ↔
      limit < (rest.length : ℤ) := by
    rw [List.length_take]
    omega
  by_cases hmore : limit < (rest.length : ℤ)
  · rw [if_pos (hlength.mpr hmore), if_pos hmore, List.take_take, min_eq_left (by omega)]
  · rw [if_neg (mt hlength.mp hmore), if_neg hmore, List.take_of_length_le (by omega)]

end Slices

section Requests

variable {math : DecimalMath} {codec : KeysetCodec CycleOverlayKey} {t : CandleTable}
  {overlay : OverlayTable} {coinId : String} {vsCurrency : Option String}
  {model : ProjectionModel} {cycle limit : Option ℤ} {cursor : Option CycleOverlayKey} {n : ℤ}
  {response : Except ApiError (Option (Page CycleOverlayPoint))}

theorem fromStr_asStr (model : ProjectionModel) :
    ProjectionModel.fromStr model.asStr = .ok model := by
  cases model <;> rfl

theorem decode_encode_cursor (codec : KeysetCodec CycleOverlayKey)
    (cursor : Option CycleOverlayKey) :
    (cursor.map codec.encode).mapM codec.decode = .ok cursor := by
  cases cursor with
  | none => rfl
  | some k =>
    change (some <$> codec.decode (codec.encode k)) = _
    rw [codec.decode_encode]
    rfl

theorem answers_table_iff (hlimit : validateLimit limit = .ok n) :
    Answers math codec t overlay coinId model.asStr
        ⟨vsCurrency, cycle, cursor.map codec.encode, limit, none⟩ response ↔
      response = .ok (some (paginate codec.encode
        (tableItems overlay coinId (resolveCurrency vsCurrency) cycle cursor n model) n
        pointKey)) := by
  unfold Answers listCycleProjectionData
  simp only [fromStr_asStr, hlimit, decode_encode_cursor]
  constructor
  · rintro ⟨daily, -, rfl⟩
    rfl
  · rintro rfl
    exact ⟨[], by simp, rfl⟩

theorem answers_asOf_iff {asOf : ℤ} (hlimit : validateLimit limit = .ok n) :
    Answers math codec t overlay coinId model.asStr
        ⟨vsCurrency, cycle, cursor.map codec.encode, limit, some asOf⟩ response ↔
      ∃ daily, LoadsDailySeries t coinId (resolveCurrency vsCurrency) (some asOf) daily ∧
        response = .ok ((computeAsOfPage math daily coinId (resolveCurrency vsCurrency) cycle cursor
          n model).map fun items => paginate codec.encode items n pointKey) := by
  unfold Answers listCycleProjectionData
  simp only [fromStr_asStr, hlimit, decode_encode_cursor]
  constructor
  · rintro ⟨daily, hload, rfl⟩
    exact ⟨daily, hload asOf rfl, rfl⟩
  · rintro ⟨daily, hload, rfl⟩
    refine ⟨daily, ?_, rfl⟩
    rintro _ ⟨⟩
    exact hload

end Requests
section Points

variable {math : DecimalMath} {coinId vsCurrency : String} {daily daily' : List DailyClose}
  {real projected : List OverlayPoint} {model : ProjectionModel}

theorem projectAsOf_projects
    (h : projectAsOfForModel math model daily real coinId vsCurrency = some projected) :
    Projects daily projected := by
  cases model with
  | replay => exact projectCycleRepeat_projects h
  | composite => exact projectComposite_projects h

theorem points_nodup (hdates : ((daily.filter inCycle).map DailyClose.date).Nodup)
    (hreal : computeOverlay daily = some real)
    (hproject : projectAsOfForModel math model daily real coinId vsCurrency = some projected) :
    (((real ++ projected).map (overlayPointToModel coinId vsCurrency)).map pointOrder).Nodup := by
  have hkeys : ((real ++ projected).map (overlayPointToModel coinId vsCurrency)).map pointOrder =
      real.map OverlayPoint.key ++ projected.map OverlayPoint.key := by
    rw [List.map_map, List.map_append]
    rfl
  have hprojects := projectAsOf_projects hproject
  rw [hkeys, List.nodup_append']
  refine ⟨(computeOverlay_keys_nodup_iff hreal).mpr hdates, hprojects.keys_nodup, ?_⟩
  intro k hk hk'
  obtain ⟨p, hp, rfl⟩ := List.mem_map.mp hk
  obtain ⟨q, hq, hkey⟩ := List.mem_map.mp hk'
  exact hprojects.key_ne hreal hp hq hkey.symm

/-- The real points depend on the dates and their closes alone. -/
theorem computeOverlay_eq_of_perm (hdates : (daily.map DailyClose.date).Nodup)
    (hperm : daily.Perm daily') : computeOverlay daily = computeOverlay daily' := by
  simp only [computeOverlay, cycleDays, sortBy_date_eq_of_perm hdates hperm]

theorem projectAsOf_eq_of_perm (hdates : (daily.map DailyClose.date).Nodup)
    (hperm : daily.Perm daily') :
    projectAsOfForModel math model daily real coinId vsCurrency =
      projectAsOfForModel math model daily' real coinId vsCurrency := by
  have hseries := collectSeries_eq_of_perm hdates hperm
  cases model with
  | replay => simp only [projectAsOfForModel, projectCycleRepeat, hseries]
  | composite => simp only [projectAsOfForModel, projectComposite, hseries]

/-- The projection of a group that a model serves. -/
def projectedGroup (groups : OverlayGroups) : ProjectionModel → List OverlayPoint
  | .replay => groups.replay
  | .composite => groups.composite

theorem projectAsOf_group {groups : OverlayGroups} (model : ProjectionModel)
    (h : overlayGroups math coinId vsCurrency daily = some groups) :
    computeOverlay daily = some groups.points ∧
      projectAsOfForModel math model daily groups.points coinId vsCurrency =
        some (projectedGroup groups model) := by
  obtain ⟨hpoints, hreplay, hcomposite⟩ := overlayGroups_eq_some h
  refine ⟨hpoints, ?_⟩
  cases model with
  | replay => exact hreplay
  | composite => exact hcomposite

theorem computeAsOfPage_of_perm {groups : OverlayGroups}
    (hdates : (daily.map DailyClose.date).Nodup) (hperm : daily.Perm daily')
    (h : overlayGroups math coinId vsCurrency daily = some groups) (cycle : Option ℤ)
    (cursor : Option CycleOverlayKey) (limit : ℤ) :
    computeAsOfPage math daily' coinId vsCurrency cycle cursor limit model =
      some (buildAsOfPage groups.points (projectedGroup groups model) coinId vsCurrency cycle cursor
        limit) := by
  obtain ⟨hreal, hproject⟩ := projectAsOf_group model h
  rw [computeOverlay_eq_of_perm hdates hperm] at hreal
  rw [projectAsOf_eq_of_perm hdates hperm] at hproject
  unfold computeAsOfPage
  rw [hreal]
  change (projectAsOfForModel math model daily' groups.points coinId vsCurrency >>= _) = _
  rw [hproject]
  rfl

/-- After a recompute the `SELECT` returns the points the as-of path computes. -/
theorem tableItems_recomputed {overlay overlay' : OverlayTable} {groups : OverlayGroups}
    (hrows : overlay'.rows = (deleteOverlay overlay coinId vsCurrency).rows ++
      groupRows coinId vsCurrency groups.tagged)
    (cycle : Option ℤ) (cursor : Option CycleOverlayKey) (limit : ℤ) :
    tableItems overlay' coinId vsCurrency cycle cursor limit model =
      buildAsOfPage groups.points (projectedGroup groups model) coinId vsCurrency cycle cursor
        limit := by
  have hdeleted : (deleteOverlay overlay coinId vsCurrency).rows.filter (fun r =>
      r.point.coinId = coinId ∧ r.point.vsCurrency = vsCurrency ∧
        (r.projectionModel = "real" ∨ r.projectionModel = model.asStr)) = [] := by
    rw [List.filter_eq_nil_iff]
    intro r hr
    simp only [decide_eq_true_eq]
    rintro ⟨hcoin, hcurrency, -⟩
    exact not_of_mem_deleteOverlay hr ⟨hcoin, hcurrency⟩
  have hgroup : ∀ (tag : String) (pts : List OverlayPoint),
      (pts.map (overlayRow coinId vsCurrency tag)).filter (fun r =>
        r.point.coinId = coinId ∧ r.point.vsCurrency = vsCurrency ∧
          (r.projectionModel = "real" ∨ r.projectionModel = model.asStr)) =
        if tag = "real" ∨ tag = model.asStr then pts.map (overlayRow coinId vsCurrency tag)
        else [] := by
    intro tag pts
    split_ifs with htag
    · rw [List.filter_eq_self]
      intro r hr
      obtain ⟨p, -, rfl⟩ := List.mem_map.mp hr
      simpa [overlayRow, overlayPointToModel] using htag
    · rw [List.filter_eq_nil_iff]
      intro r hr
      obtain ⟨p, -, rfl⟩ := List.mem_map.mp hr
      simpa [overlayRow, overlayPointToModel] using htag
  have hpoint : ∀ tag, CycleOverlayRow.point ∘ overlayRow coinId vsCurrency tag =
      overlayPointToModel coinId vsCurrency := fun _ => rfl
  unfold tableItems buildAsOfPage
  rw [hrows, List.filter_append, hdeleted, List.nil_append]
  simp only [groupRows, OverlayGroups.tagged, List.flatMap_cons, List.flatMap_nil,
    List.append_nil, List.filter_append, hgroup]
  cases model with
  | replay => simp [ProjectionModel.asStr, projectedGroup, hpoint]
  | composite => simp [ProjectionModel.asStr, projectedGroup, hpoint]

end Points
/-- `page` is what the endpoint answers, and nothing else. -/
def ServesPage (math : DecimalMath) (codec : KeysetCodec CycleOverlayKey) (t : CandleTable)
    (overlay : OverlayTable) (coinId model : String) (params : ListCycleOverlayParams)
    (page : Page CycleOverlayPoint) : Prop :=
  ∀ response, Answers math codec t overlay coinId model params response ↔
    response = .ok (some page)

section Follow

variable {full : List CycleOverlayPoint}

/-- The pages served are the slices of `full`. -/
def ServesSlices (codec : KeysetCodec CycleOverlayKey) (full : List CycleOverlayPoint)
    (serves : Option String → Option ℤ → Page CycleOverlayPoint → Prop) : Prop :=
  ∀ (cursor : Option CycleOverlayKey) (limit : Option ℤ) (n : ℤ), validateLimit limit = .ok n →
    ∀ page, serves (cursor.map codec.encode) limit page ↔ page = slicePage codec full cursor n

theorem slicePage_eq_keysetPage (codec : KeysetCodec CycleOverlayKey)
    (cursor : Option CycleOverlayKey) {n : ℤ} (hn : 1 ≤ n) :
    slicePage codec full cursor n =
      keysetPage codec.encode pointKey CycleOverlayKey.order full cursor n.toNat := by
  have hnat : ((n.toNat : ℕ) : ℤ) = n := Int.toNat_of_nonneg (by omega)
  by_cases hmore : n.toNat < (after pointOrder full (cursor.map CycleOverlayKey.order)).length
  · rw [keysetPage_more hmore]
    unfold slicePage
    dsimp only
    rw [if_pos (by omega)]
    rfl
  · rw [keysetPage_last (not_lt.mp hmore)]
    unfold slicePage
    dsimp only
    rw [if_neg (by omega)]
    rfl

theorem ServesSlices.keyset {codec : KeysetCodec CycleOverlayKey}
    {serves : Option String → Option ℤ → Page CycleOverlayPoint → Prop}
    (h : ServesSlices codec full serves) :
    ServesKeyset codec.encode pointKey CycleOverlayKey.order full pageLimit
      (fun limit => ∃ n, validateLimit limit = .ok n) serves := by
  rintro cursor limit ⟨n, hn⟩ page
  rw [h cursor limit n hn, pageLimit_eq hn, slicePage_eq_keysetPage codec cursor
    (validateLimit_pos hn).1]

/-- Following the pages of any path that serves the slices reads the list in slices. -/
theorem follows_slices {limits : ℕ → Option ℤ}
    (hlimits : ∀ i, ∃ n, validateLimit (limits i) = .ok n)
    {slices : List (List CycleOverlayPoint)} {order : Option (ℤ ×ₗ ℤ)}
    (h : Slices pointOrder full (fun i => pageLimit (limits i)) order slices)
    (codec : KeysetCodec CycleOverlayKey) :
    ∀ cursor : Option CycleOverlayKey, cursor.map CycleOverlayKey.order = order →
      ∃ pages, pages.map Page.items = slices ∧
        ∀ serves, ServesSlices codec full serves →
          ∀ pages', Follows serves limits (cursor.map codec.encode) pages' ↔ pages' = pages := by
  intro cursor hcursor
  have hslices : Slices (fun p => CycleOverlayKey.order (pointKey p)) full
      (fun i => pageLimit (limits i)) order slices := h
  obtain ⟨pages, hitems, hfollows⟩ := follows_keyset
    (fun limit => ∃ n, validateLimit limit = .ok n) hlimits hslices cursor hcursor
  exact ⟨pages, hitems, fun serves hserves => hfollows serves hserves.keyset⟩

end Follow
def pageRequest (vsCurrency : Option String) (cycle asOf : Option ℤ) (cursor : Option String)
    (limit : Option ℤ) : ListCycleOverlayParams := ⟨vsCurrency, cycle, cursor, limit, asOf⟩

section Agree

variable {math : DecimalMath} {codec : KeysetCodec CycleOverlayKey} {t : CandleTable}
  {overlay overlay' : OverlayTable} {coinId : String} {vsCurrency : Option String}
  {daily : List DailyClose} {groups : OverlayGroups} {model : ProjectionModel}
  {cycle : Option ℤ}

def servedPoints (coinId vsCurrency : String) (groups : OverlayGroups) (model : ProjectionModel) :
    List CycleOverlayPoint :=
  (groups.points ++ projectedGroup groups model).map (overlayPointToModel coinId vsCurrency)

theorem servedPoints_nodup {currency : String}
    (hdates : ((daily.filter inCycle).map DailyClose.date).Nodup)
    (hgroups : overlayGroups math coinId currency daily = some groups) :
    ((servedPoints coinId currency groups model).map pointOrder).Nodup :=
  points_nodup hdates (projectAsOf_group model hgroups).1 (projectAsOf_group model hgroups).2

theorem servesSlices_table (hdates : ((daily.filter inCycle).map DailyClose.date).Nodup)
    (hgroups : overlayGroups math coinId (resolveCurrency vsCurrency) daily = some groups)
    (hrows : overlay'.rows = (deleteOverlay overlay coinId (resolveCurrency vsCurrency)).rows ++
      groupRows coinId (resolveCurrency vsCurrency) groups.tagged) :
    ServesSlices codec
      (listing cycle (servedPoints coinId (resolveCurrency vsCurrency) groups model))
      fun cursor limit => ServesPage math codec t overlay' coinId model.asStr
        (pageRequest vsCurrency cycle none cursor limit) := by
  intro cursor limit n hn page
  have hpage : paginate codec.encode
      (tableItems overlay' coinId (resolveCurrency vsCurrency) cycle cursor n model) n pointKey =
      slicePage codec
        (listing cycle (servedPoints coinId (resolveCurrency vsCurrency) groups model)) cursor
        n := by
    rw [tableItems_recomputed hrows]
    exact paginate_orderedPage (servedPoints_nodup hdates hgroups) (validateLimit_pos hn).1
  constructor
  · intro hserves
    have hresponse := (answers_table_iff hn).mp ((hserves _).mpr rfl)
    rw [hpage] at hresponse
    exact Option.some.inj (Except.ok.inj hresponse)
  · rintro rfl response
    rw [pageRequest, answers_table_iff hn, hpage]

theorem servesSlices_asOf {asOf : ℤ}
    (hload : LoadsDailySeries t coinId (resolveCurrency vsCurrency) (some asOf) daily)
    (hdates : (daily.map DailyClose.date).Nodup)
    (hgroups : overlayGroups math coinId (resolveCurrency vsCurrency) daily = some groups) :
    ServesSlices codec
      (listing cycle (servedPoints coinId (resolveCurrency vsCurrency) groups model))
      fun cursor limit => ServesPage math codec t overlay coinId model.asStr
        (pageRequest vsCurrency cycle (some asOf) cursor limit) := by
  intro cursor limit n hn page
  have hcompute : ∀ daily',
      LoadsDailySeries t coinId (resolveCurrency vsCurrency) (some asOf) daily' →
      (computeAsOfPage math daily' coinId (resolveCurrency vsCurrency) cycle cursor n model).map
          (fun items => paginate codec.encode items n pointKey) =
        some (slicePage codec
          (listing cycle (servedPoints coinId (resolveCurrency vsCurrency) groups model)) cursor
          n) := by
    intro daily' hload'
    rw [computeAsOfPage_of_perm hdates (hload.perm hload') hgroups]
    exact congrArg some (paginate_orderedPage
      (servedPoints_nodup (inCycle_dates_nodup hdates) hgroups) (validateLimit_pos hn).1)
  have hanswers : ∀ response, Answers math codec t overlay coinId model.asStr
      (pageRequest vsCurrency cycle (some asOf) (cursor.map codec.encode) limit) response ↔
      response = .ok (some (slicePage codec
        (listing cycle (servedPoints coinId (resolveCurrency vsCurrency) groups model)) cursor
        n)) := by
    intro response
    rw [pageRequest, answers_asOf_iff hn]
    constructor
    · rintro ⟨daily', hload', rfl⟩
      rw [hcompute daily' hload']
    · rintro rfl
      exact ⟨daily, hload, by rw [hcompute daily hload]⟩
  constructor
  · intro hserves
    have hresponse := (hanswers _).mp ((hserves _).mpr rfl)
    exact Option.some.inj (Except.ok.inj hresponse)
  · rintro rfl response
    exact hanswers response

/-- After a committed recompute the two paths serve the same pages, whatever the
limits, and together they are the real points and those of the model, once each in
key order. -/
theorem overlay_pages_agree {asOf : ℤ}
    (hdates : ((nativeRows t coinId (resolveCurrency vsCurrency) none).map
      DailyClose.date).Nodup)
    (hmicros : ∀ c ∈ t.rows, Micros c.ts)
    (hnewest : ∀ c ∈ t.rows, c.coinId = coinId → c.vsCurrency = resolveCurrency vsCurrency →
      c.ts ≤ asOf)
    (hload : LoadsDailySeries t coinId (resolveCurrency vsCurrency) none daily)
    (hcommit : recomputeCycleOverlay math overlay coinId (resolveCurrency vsCurrency) daily =
      .committed overlay')
    (codec : KeysetCodec CycleOverlayKey) (model : ProjectionModel) (cycle : Option ℤ)
    {limits : ℕ → Option ℤ} (hlimits : ∀ i, ∃ n, validateLimit (limits i) = .ok n) :
    ∃ groups, overlayGroups math coinId (resolveCurrency vsCurrency) daily = some groups ∧
      ∃ pages,
        (∀ pages', Follows (fun cursor limit => ServesPage math codec t overlay' coinId model.asStr
            (pageRequest vsCurrency cycle none cursor limit)) limits none pages' ↔
          pages' = pages) ∧
        (∀ pages', Follows (fun cursor limit => ServesPage math codec t overlay' coinId model.asStr
            (pageRequest vsCurrency cycle (some asOf) cursor limit)) limits none pages' ↔
          pages' = pages) ∧
        Ascending pointOrder (pages.flatMap Page.items) ∧
        ∀ p, p ∈ pages.flatMap Page.items ↔ (∀ c ∈ cycle, p.cycleNumber = c) ∧
          ∃ q ∈ groups.points ++ projectedGroup groups model,
            overlayPointToModel coinId (resolveCurrency vsCurrency) q = p := by
  obtain ⟨groups, hgroups, hrows⟩ := recompute_committed hcommit
  have hdaily := hload.dates_nodup hdates
  have hcycles := inCycle_dates_nodup hdaily
  have hstored : ∀ c ∈ t.rows, c.coinId = coinId → c.vsCurrency = resolveCurrency vsCurrency →
      c.ts ≤ storeTimestamptz asOf := fun c hc hcoin hcurrency =>
    le_storeTimestamptz (hmicros c hc) (hnewest c hc hcoin hcurrency)
  have hloadAsOf := (loadsDailySeries_newest hstored).mpr hload
  have hascending : Ascending pointOrder
      (listing cycle (servedPoints coinId (resolveCurrency vsCurrency) groups model)) :=
    listing_ascending (servedPoints_nodup hcycles hgroups)
  have hpositive : ∀ i, 0 < pageLimit (limits i) := by
    intro i
    obtain ⟨n, hn⟩ := hlimits i
    have hone := (validateLimit_pos hn).1
    rw [pageLimit_eq hn]
    omega
  obtain ⟨slices, hslices⟩ := exists_slices hascending hpositive none
  obtain ⟨pages, hitems, hfollows⟩ := follows_slices hlimits hslices codec none rfl
  have hconcat : pages.flatMap Page.items =
      listing cycle (servedPoints coinId (resolveCurrency vsCurrency) groups model) := by
    rw [List.flatMap_def, hitems, hslices.flatten_eq hascending, after_none]
  refine ⟨groups, hgroups, pages, hfollows _ (servesSlices_table hcycles hgroups hrows),
    hfollows _ (servesSlices_asOf hloadAsOf hdaily hgroups), hconcat ▸ hascending, ?_⟩
  intro p
  rw [hconcat, mem_listing, servedPoints, List.mem_map, and_comm]

end Agree

section CycleApart

/-- Keys in unary: the letter of a digit says its field and sign. -/
def unaryCodec : KeysetCodec CycleOverlayKey where
  encode key := String.ofList
    (List.replicate key.cycleNumber.natAbs (if 0 ≤ key.cycleNumber then 'a' else 'b') ++
      List.replicate key.daysSinceHalving.natAbs (if 0 ≤ key.daysSinceHalving then 'c' else 'd'))
  decode cursor :=
    let digits := cursor.toList
    .ok ⟨(digits.count 'a' : ℤ) - digits.count 'b', (digits.count 'c' : ℤ) - digits.count 'd'⟩
  decode_encode key := by
    obtain ⟨cycle, days⟩ := key
    simp only [String.toList_ofList, List.count_append]
    congr 2
    · rcases le_or_gt 0 cycle with hcycle | hcycle <;> rcases le_or_gt 0 days with hdays | hdays <;>
        simp [hcycle, hdays, List.count_replicate, not_le.mpr, abs_of_nonneg, abs_of_neg]
    · rcases le_or_gt 0 cycle with hcycle | hcycle <;> rcases le_or_gt 0 days with hdays | hdays <;>
        simp [hcycle, hdays, List.count_replicate, not_le.mpr, abs_of_nonneg, abs_of_neg]

/-- Two daily rows of ETH/USD, more than a cycle apart. -/
def cycleApart : CandleTable :=
  ⟨[⟨"ethereum", "usd", "1d", fromTimestamp 1588204800, 206, 206, 206, 206, none, "binance"⟩,
    ⟨"ethereum", "usd", "1d", fromTimestamp 1714521600, 2972, 2972, 2972, 2972, none, "binance"⟩],
    by decide⟩

def cycleApartModel : FittedModel :=
  ⟨-38873 / 1300, 116 / 13, [], [], projectedHalvingDates, 9961566 / 10000000⟩

theorem cycleApart_groups : ∃ groups, overlayGroups roundedMath "ethereum" "usd"
    (nativeRows cycleApart "ethereum" "usd" none) = some groups ∧
      groups.replay ≠ [] ∧ groups.composite ≠ [] := by
  have hdaily : ∀ d ∈ nativeRows cycleApart "ethereum" "usd" none,
      genesis < d.date ∧ 0 < d.close := by decide +kernel
  have hpos : ∀ d ∈ nativeRows cycleApart "ethereum" "usd" none, 0 < d.close :=
    fun d hd => (hdaily d hd).2
  have hfirst : (collectSeries (nativeRows cycleApart "ethereum" "usd" none)).head? =
      some ⟨NaiveDate.fromYmd 2020 4 30, 206⟩ := by decide +kernel
  have hlast : (collectSeries (nativeRows cycleApart "ethereum" "usd" none)).getLast? =
      some ⟨NaiveDate.fromYmd 2024 5 1, 2972⟩ := by decide +kernel
  have hfit : fitModel roundedMath ((collectSeries (nativeRows cycleApart "ethereum" "usd"
      none)).filter fun d => 0 < d.close) (useBtcAnchors "ethereum" "usd") =
        some (some cycleApartModel) := by decide +kernel
  obtain ⟨points, hpoints⟩ := computeOverlay_exists hpos
  have hexact := hpoints
  rw [← DecimalArith.computeOverlay_exact] at hexact
  obtain ⟨replay, hreplay, hreplayed⟩ :=
    DecimalArith.projectCycleRepeat_exists hpos hexact hfirst hlast (by decide)
  rw [DecimalArith.projectCycleRepeat_exact] at hreplay
  obtain ⟨composite, hcomposite, hprojected⟩ :=
    projectComposite_exists roundedMath_defined hdaily hexact hfirst hlast (by decide) hfit
  refine ⟨⟨points, replay, composite⟩, ?_, hreplayed, hprojected⟩
  simp only [overlayGroups, hpoints, hreplay, hcomposite, Option.bind_eq_bind, Option.bind_some]
  rfl

/-- Pages of one point each, of the table and as of the start of 2026. -/
theorem overlay_pages_agree_cycle_apart : ∃ (overlay : OverlayTable) (groups : OverlayGroups),
    overlayGroups roundedMath "ethereum" (resolveCurrency none)
        (nativeRows cycleApart "ethereum" (resolveCurrency none) none) = some groups ∧
      groups.replay ≠ [] ∧ groups.composite ≠ [] ∧ ∀ model : ProjectionModel, ∃ pages,
        Follows (fun cursor limit => ServesPage roundedMath unaryCodec cycleApart overlay
          "ethereum" model.asStr (pageRequest none none none cursor limit))
          (fun _ => some 1) none pages ∧
        Follows (fun cursor limit => ServesPage roundedMath unaryCodec cycleApart overlay
          "ethereum" model.asStr
          (pageRequest none none (some (fromTimestamp 1767225600)) cursor limit))
          (fun _ => some 1) none pages ∧
        ∀ p, p ∈ pages.flatMap Page.items ↔ ∃ q ∈ groups.points ++ projectedGroup groups model,
          overlayPointToModel "ethereum" (resolveCurrency none) q = p := by
  have hcurrency : resolveCurrency none = "usd" := by decide +kernel
  obtain ⟨groups, hgroups, hreplayed, hprojected⟩ := cycleApart_groups
  have hload : LoadsDailySeries cycleApart "ethereum" "usd" none
      (nativeRows cycleApart "ethereum" "usd" none) := by decide +kernel
  have hdistinct : NativeDatesDistinct cycleApart "ethereum" "usd" := by decide +kernel
  obtain ⟨hkeys, -⟩ := overlay_keys_unique_iff hload hgroups KeyedTable.empty
  obtain ⟨overlay, hcommit⟩ := exists_committed hgroups (hkeys.mpr hdistinct) KeyedTable.empty
  rw [← hcurrency] at hcommit hgroups hload
  have hdates : ((nativeRows cycleApart "ethereum" (resolveCurrency none) none).map
      DailyClose.date).Nodup := by decide +kernel
  have hnewest : ∀ c ∈ cycleApart.rows, c.coinId = "ethereum" →
      c.vsCurrency = resolveCurrency none → c.ts ≤ fromTimestamp 1767225600 := by decide +kernel
  have hlimits : ∀ i : ℕ, ∃ n, validateLimit ((fun _ => some 1 : ℕ → Option ℤ) i) = .ok n :=
    fun _ => ⟨1, rfl⟩
  refine ⟨overlay, groups, hgroups, hreplayed, hprojected, ?_⟩
  intro model
  obtain ⟨groups', hgroups', pages, htable, hasOf, -, hpoints⟩ :=
    overlay_pages_agree hdates (by decide) hnewest hload hcommit unaryCodec model none hlimits
  obtain rfl := Option.some.inj (hgroups'.symm.trans hgroups)
  exact ⟨pages, (htable pages).mpr rfl, (hasOf pages).mpr rfl,
    fun p => (hpoints p).trans (by simp)⟩

end CycleApart
end CryptoCollector.Api

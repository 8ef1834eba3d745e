import CryptoCollector.Collectors.CycleOverlayKeys
import CryptoCollector.Collectors.DailySeries
import CryptoCollector.Foundations.KeyedTable
import CryptoCollector.Models.CycleOverlay

/-!
# Recomputing the overlay

`recompute_cycle_overlay` replaces the rows of a coin and currency: the real
points and those of two projections, each group one `INSERT`. Two rows with one
key abort it, and the old rows stay.
-/

namespace CryptoCollector.Collectors
open Db Models Foundations

abbrev OverlayTable := KeyedTable CycleOverlayRow.key

structure OverlayGroups where
  points : List OverlayPoint
  replay : List OverlayPoint
  composite : List OverlayPoint
  deriving DecidableEq, Repr

/-- The groups under their tags, in the order they are inserted. -/
def OverlayGroups.tagged (g : OverlayGroups) : List (String × List OverlayPoint) :=
  [("real", g.points), ("replay", g.replay), ("composite", g.composite)]

/-- The calibration anchors are BTC/USD closes. -/
def useBtcAnchors (coinId vsCurrency : String) : Bool := coinId = "bitcoin" ∧ vsCurrency = "usd"

/-- What `recompute_cycle_overlay` computes before it writes. -/
def overlayGroups (math : DecimalMath) (coinId vsCurrency : String) (daily : List DailyClose) :
    Option OverlayGroups := do
  let points ← computeOverlay daily
  let replay ← projectCycleRepeat daily points
  let composite ← projectComposite math daily points (useBtcAnchors coinId vsCurrency)
  return ⟨points, replay, composite⟩

/-- `overlay_point_to_model`, the columns of the `INSERT` as well. -/
def overlayPointToModel (coinId vsCurrency : String) (p : OverlayPoint) : CycleOverlayPoint :=
  ⟨coinId, vsCurrency, p.cycleNumber, p.halvingDate, p.daysSinceHalving, p.ts, p.price,
    p.normHalving, p.normCycleLow, p.halvingBaselineApproximate, p.projected, p.priceLow,
    p.priceHigh⟩

def overlayRow (coinId vsCurrency model : String) (p : OverlayPoint) : CycleOverlayRow :=
  ⟨overlayPointToModel coinId vsCurrency p, model⟩

/-- The `DELETE` of a coin and currency. -/
def deleteOverlay (overlay : OverlayTable) (coinId vsCurrency : String) : OverlayTable :=
  overlay.erase fun r => r.point.coinId = coinId ∧ r.point.vsCurrency = vsCurrency

/-- The `INSERT` of one group; an empty one is skipped. -/
def insertGroup (coinId vsCurrency : String) (overlay : OverlayTable)
    (group : String × List OverlayPoint) : Option OverlayTable :=
  if group.2.isEmpty then some overlay
  else overlay.insertAll (group.2.map (overlayRow coinId vsCurrency group.1))

inductive RecomputeOutcome where
  | panicked
  | aborted
  | committed (overlay : OverlayTable)

/-- `recompute_cycle_overlay` once the series is loaded. -/
def recomputeCycleOverlay (math : DecimalMath) (overlay : OverlayTable)
    (coinId vsCurrency : String) (daily : List DailyClose) : RecomputeOutcome :=
  match overlayGroups math coinId vsCurrency daily with
  | none => .panicked
  | some groups =>
    match groups.tagged.foldlM (insertGroup coinId vsCurrency)
        (deleteOverlay overlay coinId vsCurrency) with
    | none => .aborted
    | some overlay => .committed overlay

section Groups

variable {math : DecimalMath} {coinId vsCurrency : String} {daily : List DailyClose}
  {groups : OverlayGroups}

theorem overlayGroups_eq_some (h : overlayGroups math coinId vsCurrency daily = some groups) :
    computeOverlay daily = some groups.points ∧
      projectCycleRepeat daily groups.points = some groups.replay ∧
      projectComposite math daily groups.points (useBtcAnchors coinId vsCurrency) =
        some groups.composite := by
  obtain ⟨points, hpoints, h⟩ := Option.bind_eq_some_iff.mp h
  obtain ⟨replay, hreplay, h⟩ := Option.bind_eq_some_iff.mp h
  obtain ⟨composite, hcomposite, h⟩ := Option.bind_eq_some_iff.mp h
  cases h
  exact ⟨hpoints, hreplay, hcomposite⟩

/-- The projections never repeat a key, so all groups are free of repeats exactly
when no two days in a cycle share a date. -/
theorem overlayGroups_keys_nodup_iff
    (h : overlayGroups math coinId vsCurrency daily = some groups) :
    (∀ group ∈ groups.tagged, (group.2.map OverlayPoint.key).Nodup) ↔
      ((daily.filter inCycle).map DailyClose.date).Nodup := by
  obtain ⟨hpoints, hreplay, hcomposite⟩ := overlayGroups_eq_some h
  rw [← computeOverlay_keys_nodup_iff hpoints]
  constructor
  · intro hall
    exact hall ("real", groups.points) List.mem_cons_self
  · intro hreal group hgroup
    simp only [OverlayGroups.tagged, List.mem_cons, List.not_mem_nil, or_false] at hgroup
    rcases hgroup with rfl | rfl | rfl
    · exact hreal
    · exact (projectCycleRepeat_projects hreplay).keys_nodup
    · exact (projectComposite_projects hcomposite).keys_nodup

end Groups

section Insert

variable {coinId vsCurrency : String}

theorem overlayRow_key_inj {model model' : String} {p q : OverlayPoint} :
    (overlayRow coinId vsCurrency model p).key = (overlayRow coinId vsCurrency model' q).key ↔
      model = model' ∧ p.key = q.key := by
  simp [overlayRow, overlayPointToModel, CycleOverlayRow.key, OverlayPoint.key]

def groupRows (coinId vsCurrency : String) (tagged : List (String × List OverlayPoint)) :
    List CycleOverlayRow :=
  tagged.flatMap fun group => group.2.map (overlayRow coinId vsCurrency group.1)

theorem foldlM_insertGroup_eq_some_iff {tagged : List (String × List OverlayPoint)}
    {overlay overlay' : OverlayTable} :
    tagged.foldlM (insertGroup coinId vsCurrency) overlay = some overlay' ↔
      overlay'.rows = overlay.rows ++ groupRows coinId vsCurrency tagged := by
  induction tagged generalizing overlay with
  | nil =>
    simp only [List.foldlM_nil, groupRows, List.flatMap_nil, List.append_nil]
    rw [KeyedTable.rows_inj, eq_comm (a := overlay')]
    exact Option.some_inj
  | cons group tagged ih =>
    rw [List.foldlM_cons]
    have hgroup : ∀ o, insertGroup coinId vsCurrency overlay group = some o ↔
        o.rows = overlay.rows ++ group.2.map (overlayRow coinId vsCurrency group.1) := by
      intro o
      unfold insertGroup
      split_ifs with hempty
      · rw [List.isEmpty_iff.mp hempty, List.map_nil, List.append_nil, KeyedTable.rows_inj,
          eq_comm (a := o), Option.some.injEq]
      · exact KeyedTable.insertAll_eq_some_iff
    constructor
    · intro h
      obtain ⟨o, ho, hrest⟩ := Option.bind_eq_some_iff.mp h
      rw [ih.mp hrest, (hgroup o).mp ho, groupRows, groupRows, List.flatMap_cons,
        List.append_assoc]
    · intro hrows
      rw [groupRows, List.flatMap_cons, ← List.append_assoc] at hrows
      have hnodup := overlay'.unique
      rw [hrows, List.map_append] at hnodup
      let o : OverlayTable := ⟨_, hnodup.of_append_left⟩
      exact Option.bind_eq_some_iff.mpr ⟨o, (hgroup o).mpr rfl, ih.mpr hrows⟩

theorem mem_groupRows {tagged : List (String × List OverlayPoint)} {r : CycleOverlayRow} :
    r ∈ groupRows coinId vsCurrency tagged ↔
      ∃ group ∈ tagged, ∃ p ∈ group.2, overlayRow coinId vsCurrency group.1 p = r := by
  simp [groupRows]

theorem groupRows_keys_nodup_iff (coinId vsCurrency : String)
    {tagged : List (String × List OverlayPoint)} (htags : (tagged.map Prod.fst).Nodup) :
    ((groupRows coinId vsCurrency tagged).map CycleOverlayRow.key).Nodup ↔
      ∀ group ∈ tagged, (group.2.map OverlayPoint.key).Nodup := by
  have hgroup : ∀ group : String × List OverlayPoint,
      ((group.2.map (overlayRow coinId vsCurrency group.1)).map CycleOverlayRow.key).Nodup ↔
        (group.2.map OverlayPoint.key).Nodup := by
    intro group
    simp only [List.map_map, List.Nodup, List.pairwise_map, Function.comp, ne_eq,
      overlayRow_key_inj, true_and]
  induction tagged with
  | nil => simp [groupRows]
  | cons group tagged ih =>
    rw [List.map_cons, List.nodup_cons] at htags
    rw [groupRows, List.flatMap_cons, ← groupRows, List.map_append, List.nodup_append',
      List.forall_mem_cons, hgroup]
    have hrest := ih htags.2
    have hapart : List.Disjoint
        ((group.2.map (overlayRow coinId vsCurrency group.1)).map CycleOverlayRow.key)
        ((groupRows coinId vsCurrency tagged).map CycleOverlayRow.key) := by
      intro k hk hk'
      obtain ⟨r, hr, rfl⟩ := List.mem_map.mp hk
      obtain ⟨p, hp, rfl⟩ := List.mem_map.mp hr
      obtain ⟨r', hr', hkey⟩ := List.mem_map.mp hk'
      obtain ⟨group', hgroup', q, hq, rfl⟩ := mem_groupRows.mp hr'
      have hmodel := (overlayRow_key_inj.mp hkey).1
      exact htags.1 (hmodel ▸ List.mem_map_of_mem hgroup')
    tauto

theorem not_of_mem_deleteOverlay {overlay : OverlayTable} {r : CycleOverlayRow}
    (hr : r ∈ (deleteOverlay overlay coinId vsCurrency).rows) :
    ¬(r.point.coinId = coinId ∧ r.point.vsCurrency = vsCurrency) := by
  have hkept := (List.mem_filter.mp hr).2
  simpa only [Bool.not_eq_eq_eq_not, Bool.not_true, decide_eq_false_iff_not] using hkept

theorem not_mem_deleteOverlay {overlay : OverlayTable} {r : CycleOverlayRow}
    (hr : r ∈ (deleteOverlay overlay coinId vsCurrency).rows) (model : String) (p : OverlayPoint) :
    r.key ≠ (overlayRow coinId vsCurrency model p).key := by
  intro hkey
  exact not_of_mem_deleteOverlay hr
    ⟨congrArg CycleOverlayRowKey.coinId hkey, congrArg CycleOverlayRowKey.vsCurrency hkey⟩

theorem tagged_nodup (groups : OverlayGroups) : (groups.tagged.map Prod.fst).Nodup := by
  simp [OverlayGroups.tagged]

theorem exists_inserted_iff (overlay : OverlayTable) (coinId vsCurrency : String)
    (groups : OverlayGroups) :
    (∃ overlay', groups.tagged.foldlM (insertGroup coinId vsCurrency)
        (deleteOverlay overlay coinId vsCurrency) = some overlay') ↔
      ∀ group ∈ groups.tagged, (group.2.map OverlayPoint.key).Nodup := by
  rw [← groupRows_keys_nodup_iff coinId vsCurrency (tagged_nodup groups)]
  constructor
  · rintro ⟨overlay', h⟩
    have hnodup := overlay'.unique
    rw [foldlM_insertGroup_eq_some_iff.mp h, List.map_append] at hnodup
    exact hnodup.of_append_right
  · intro hnodup
    have hall : (((deleteOverlay overlay coinId vsCurrency).rows ++
        groupRows coinId vsCurrency groups.tagged).map CycleOverlayRow.key).Nodup := by
      rw [List.map_append]
      apply List.nodup_append'.mpr ⟨(deleteOverlay overlay coinId vsCurrency).unique, hnodup, _⟩
      intro k hk hk'
      obtain ⟨r, hr, rfl⟩ := List.mem_map.mp hk
      obtain ⟨r', hr', hkey⟩ := List.mem_map.mp hk'
      obtain ⟨group, -, p, -, rfl⟩ := mem_groupRows.mp hr'
      exact not_mem_deleteOverlay hr _ _ hkey.symm
    exact ⟨⟨_, hall⟩, foldlM_insertGroup_eq_some_iff.mpr rfl⟩

theorem recompute_aborted_iff {math : DecimalMath} {overlay : OverlayTable}
    {daily : List DailyClose} {groups : OverlayGroups}
    (h : overlayGroups math coinId vsCurrency daily = some groups) :
    recomputeCycleOverlay math overlay coinId vsCurrency daily = .aborted ↔
      ¬∀ group ∈ groups.tagged, (group.2.map OverlayPoint.key).Nodup := by
  rw [← exists_inserted_iff overlay coinId vsCurrency groups]
  simp only [recomputeCycleOverlay, h]
  cases groups.tagged.foldlM (insertGroup coinId vsCurrency)
      (deleteOverlay overlay coinId vsCurrency) with
  | none => simp
  | some overlay' => simp

theorem exists_committed {math : DecimalMath} {daily : List DailyClose} {groups : OverlayGroups}
    (h : overlayGroups math coinId vsCurrency daily = some groups)
    (hkeys : ∀ group ∈ groups.tagged, (group.2.map OverlayPoint.key).Nodup)
    (overlay : OverlayTable) :
    ∃ overlay', recomputeCycleOverlay math overlay coinId vsCurrency daily =
      .committed overlay' := by
  obtain ⟨overlay', hinserted⟩ := (exists_inserted_iff overlay coinId vsCurrency groups).mpr hkeys
  refine ⟨overlay', ?_⟩
  simp only [recomputeCycleOverlay, h, hinserted]

/-- After a committed recompute the table holds the rows of the groups, and of the
other coins and currencies what it held before. -/
theorem recompute_committed {math : DecimalMath} {overlay overlay' : OverlayTable}
    {daily : List DailyClose}
    (h : recomputeCycleOverlay math overlay coinId vsCurrency daily = .committed overlay') :
    ∃ groups, overlayGroups math coinId vsCurrency daily = some groups ∧
      overlay'.rows = (deleteOverlay overlay coinId vsCurrency).rows ++
        groupRows coinId vsCurrency groups.tagged := by
  unfold recomputeCycleOverlay at h
  split at h
  · cases h
  · next groups hgroups =>
    split at h
    · cases h
    · next inserted hinserted =>
      cases h
      exact ⟨groups, hgroups, foldlM_insertGroup_eq_some_iff.mp hinserted⟩

end Insert
section Unique

variable {math : DecimalMath} {t : CandleTable} {coinId vsCurrency : String}
  {daily : List DailyClose} {groups : OverlayGroups}

/-- No two native `1d` rows of the coin and currency fall on one date since the
first halving. -/
def NativeDatesDistinct (t : CandleTable) (coinId vsCurrency : String) : Prop :=
  (((nativeRows t coinId vsCurrency none).filter inCycle).map DailyClose.date).Nodup

instance (t : CandleTable) (coinId vsCurrency : String) :
    Decidable (NativeDatesDistinct t coinId vsCurrency) :=
  inferInstanceAs (Decidable (List.Nodup _))

/-- Only the native query can return a date twice. -/
theorem loadsDailySeries_dates_nodup_iff (h : LoadsDailySeries t coinId vsCurrency none daily) :
    ((daily.filter inCycle).map DailyClose.date).Nodup ↔
      NativeDatesDistinct t coinId vsCurrency := by
  unfold LoadsDailySeries at h
  unfold NativeDatesDistinct
  split_ifs at h with hnative
  · subst h
    rw [hnative]
    apply iff_of_true _ List.nodup_nil
    exact inCycle_dates_nodup aggregateDaily_dates_nodup
  · exact ((h.filter inCycle).map DailyClose.date).nodup_iff

/-- The keys of each group are different, and the recompute is not aborted, exactly
when the native rows do not share a date. -/
theorem overlay_keys_unique_iff (hload : LoadsDailySeries t coinId vsCurrency none daily)
    (hgroups : overlayGroups math coinId vsCurrency daily = some groups)
    (overlay : OverlayTable) :
    ((∀ group ∈ groups.tagged, (group.2.map OverlayPoint.key).Nodup) ↔
        NativeDatesDistinct t coinId vsCurrency) ∧
      (recomputeCycleOverlay math overlay coinId vsCurrency daily = .aborted ↔
        ¬NativeDatesDistinct t coinId vsCurrency) := by
  have hkeys := (overlayGroups_keys_nodup_iff hgroups).trans
    (loadsDailySeries_dates_nodup_iff hload)
  exact ⟨hkeys, (recompute_aborted_iff hgroups).trans (not_congr hkeys)⟩

end Unique

section Examples

/-- The values of the functions at the arguments where they are rational. -/
def exactMath : DecimalMath where
  log10 x := if x = 1 then some 0 else if x = 10 then some 1 else none
  ln x := if x = 1 then some 0 else none
  exp x := if x = 0 then some 1 else none
  powd x y := if y = 0 then some 1 else if y = 1 then some x else none
  powi x n := if 0 ≤ n then some (x ^ n.toNat) else none

def btcDay (ts : ℤ) (close : ℚ) (source : String) : CoinCandle :=
  ⟨"bitcoin", "usd", "1d", DateTime.fromTimestamp ts, close, close, close, close, none, source⟩

def twoDays : CandleTable :=
  ⟨[btcDay 1719792000 60000 "bitstamp", btcDay 1719878400 61000 "bitstamp"], by decide⟩

theorem overlay_keys_unique_two_days :
    (∀ group ∈ OverlayGroups.tagged
        ⟨((computeOverlay (nativeRows twoDays "bitcoin" "usd" none)).getD []), [], []⟩,
          (group.2.map OverlayPoint.key).Nodup) ∧
      recomputeCycleOverlay exactMath KeyedTable.empty "bitcoin" "usd"
        (nativeRows twoDays "bitcoin" "usd" none) ≠ .aborted := by
  have hdistinct : NativeDatesDistinct twoDays "bitcoin" "usd" := by decide
  have hload : LoadsDailySeries twoDays "bitcoin" "usd" none
      (nativeRows twoDays "bitcoin" "usd" none) := by decide
  have hgroups : overlayGroups exactMath "bitcoin" "usd"
      (nativeRows twoDays "bitcoin" "usd" none) =
        some ⟨(computeOverlay (nativeRows twoDays "bitcoin" "usd" none)).getD [], [], []⟩ := by
    decide +kernel
  obtain ⟨hkeys, haborted⟩ := overlay_keys_unique_iff hload hgroups KeyedTable.empty
  exact ⟨hkeys.mpr hdistinct, fun h => haborted.mp h hdistinct⟩

/-- A provider's candle stamped at noon beside the one stamped at midnight. -/
def sharedDate : CandleTable :=
  ⟨[btcDay 1719792000 60000 "bitstamp", btcDay 1719835200 61000 "coingecko"], by decide⟩

/-- Both rows become points of one cycle day, and the recompute is aborted. -/
theorem recompute_aborts_on_shared_date :
    ¬∀ (math : DecimalMath) (t : CandleTable) (coinId vsCurrency : String)
        (daily : List DailyClose) (groups : OverlayGroups) (overlay : OverlayTable),
      LoadsDailySeries t coinId vsCurrency none daily →
      overlayGroups math coinId vsCurrency daily = some groups →
        (∀ group ∈ groups.tagged, (group.2.map OverlayPoint.key).Nodup) ∧
          recomputeCycleOverlay math overlay coinId vsCurrency daily ≠ .aborted := by
  intro hall
  have hkeys := (hall exactMath sharedDate "bitcoin" "usd"
    (nativeRows sharedDate "bitcoin" "usd" none)
    ⟨(computeOverlay (nativeRows sharedDate "bitcoin" "usd" none)).getD [], [], []⟩
    KeyedTable.empty (by decide) (by decide +kernel)).1
  revert hkeys
  decide +kernel

end Examples
end CryptoCollector.Collectors

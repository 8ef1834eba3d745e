import CryptoCollector.Collectors.CycleProjection
import Mathlib.Data.List.GetD

/-!
# Overlay keys

A point is ordered and stored by its cycle and its day in the cycle. The halving
list the projections use extends that of the real points, so one function gives
the date of every key, and points of different dates have different keys.
-/

namespace CryptoCollector.Collectors
open Foundations

def OverlayPoint.key (p : OverlayPoint) : ℤ ×ₗ ℤ := toLex (p.cycleNumber, p.daysSinceHalving)

def OverlayPoint.dayClose (p : OverlayPoint) : DailyClose := ⟨p.ts, p.price⟩

def keyDate (key : ℤ ×ₗ ℤ) : ℤ :=
  projectedHalvingDates.getD ((ofLex key).1 - 1).toNat 0 + (ofLex key).2

def CycleAssignment.key (a : CycleAssignment) : ℤ ×ₗ ℤ := toLex (a.cycleNumber, a.daysSinceHalving)

/-- The day lies in a halving cycle. -/
def inCycle (d : DailyClose) : Bool := (assignCycle d.date).isSome

theorem inCycle_dates_nodup {daily : List DailyClose} (h : (daily.map DailyClose.date).Nodup) :
    ((daily.filter inCycle).map DailyClose.date).Nodup :=
  h.sublist (List.filter_sublist.map DailyClose.date)

section Assignment

theorem keyDate_assignCycleIn (date : ℤ) :
    keyDate (assignCycleIn date projectedHalvingDates).key = date := by
  simp [keyDate, CycleAssignment.key, assignCycleIn]

theorem halvingIndex_lt (date : ℤ) : halvingIndex date halvingDates < halvingDates.length := by
  have hle := (List.takeWhile_sublist (· ≤ date) (l := halvingDates)).length_le
  have hlength : halvingDates.length = 4 := rfl
  unfold halvingIndex
  omega

theorem keyDate_assignCycle {date : ℤ} {a : CycleAssignment} (h : assignCycle date = some a) :
    keyDate a.key = date := by
  unfold assignCycle at h
  split_ifs at h
  cases h
  have hprefix : projectedHalvingDates.getD (halvingIndex date halvingDates) 0 =
      halvingDates.getD (halvingIndex date halvingDates) 0 :=
    List.getD_append halvingDates _ 0 _ (halvingIndex_lt date)
  have hindex : ((halvingIndex date halvingDates : ℤ) + 1 - 1).toNat =
      halvingIndex date halvingDates := by omega
  simp only [keyDate, CycleAssignment.key, assignCycleIn, ofLex_toLex, hindex, hprefix]
  omega

theorem assignCycle_eq {date : ℤ} {a : CycleAssignment} (h : assignCycle date = some a) :
    a = assignCycleIn date halvingDates := by
  unfold assignCycle at h
  split_ifs at h
  exact (Option.some.inj h).symm

end Assignment

section Real

variable {daily : List DailyClose} {pts : List OverlayPoint}

theorem mem_cycleDays {c : CycleDay} :
    c ∈ cycleDays daily ↔ ⟨c.date, c.price⟩ ∈ daily ∧ assignCycle c.date = some c.assignment := by
  unfold cycleDays
  rw [List.mem_filterMap]
  constructor
  · rintro ⟨d, hd, hassign⟩
    obtain ⟨a, ha, rfl⟩ := Option.map_eq_some_iff.mp hassign
    exact ⟨(mem_sortBy _).mp hd, ha⟩
  · rintro ⟨hd, ha⟩
    exact ⟨_, (mem_sortBy _).mpr hd, by simp [ha]⟩

theorem cycleDays_map_close :
    ((cycleDays daily).map fun c => DailyClose.mk c.date c.price) =
      (sortBy DailyClose.date daily).filter inCycle := by
  unfold cycleDays
  induction sortBy DailyClose.date daily with
  | nil => rfl
  | cons d l ih =>
    cases ha : assignCycle d.date with
    | none => simp [ha, inCycle, ih]
    | some a => simp [ha, inCycle, ih]

theorem cycleDays_closes :
    ((cycleDays daily).map fun c => DailyClose.mk c.date c.price).Perm (daily.filter inCycle) := by
  rw [cycleDays_map_close]
  exact (List.perm_insertionSort _ daily).filter _

/-- A real point is made from a day of its cycle. -/
structure RealOf (c : CycleDay) (p : OverlayPoint) : Prop where
  cycleNumber : p.cycleNumber = c.assignment.cycleNumber
  daysSinceHalving : p.daysSinceHalving = c.assignment.daysSinceHalving
  dayClose : p.dayClose = ⟨c.date, c.price⟩
  observed : p.projected = false

theorem overlayCycle_points {cycle : Group ℤ CycleDay} {pts : List OverlayPoint}
    (h : overlayCycle cycle = some pts) :
    pts.map OverlayPoint.dayClose =
        (sortBy (fun c => c.assignment.daysSinceHalving) cycle.items).map
          (fun c => DailyClose.mk c.date c.price) ∧
      ∀ p ∈ pts, p.cycleNumber = cycle.key ∧ p.projected = false ∧
        ∃ c ∈ cycle.items, p.daysSinceHalving = c.assignment.daysSinceHalving ∧
          p.dayClose = ⟨c.date, c.price⟩ := by
  obtain ⟨first, -, hrest⟩ := Option.bind_eq_some_iff.mp h
  obtain ⟨low, -, hmap⟩ := Option.bind_eq_some_iff.mp hrest
  constructor
  · apply map_eq_of_mapM _ hmap
    intro c _ p hp
    obtain ⟨n, -, hp⟩ := Option.bind_eq_some_iff.mp hp
    obtain ⟨m, -, hp⟩ := Option.bind_eq_some_iff.mp hp
    cases hp
    rfl
  · intro p hp
    obtain ⟨c, hc, hp⟩ := exists_entry_of_mapM hmap hp
    obtain ⟨n, -, hp⟩ := Option.bind_eq_some_iff.mp hp
    obtain ⟨m, -, hp⟩ := Option.bind_eq_some_iff.mp hp
    cases hp
    exact ⟨rfl, rfl, c, (mem_sortBy _).mp hc, rfl, rfl⟩

theorem computeOverlay_groups (h : computeOverlay daily = some pts) :
    ∃ cycles, (groupBy (fun p => p.assignment.cycleNumber) (cycleDays daily)).mapM overlayCycle =
      some cycles ∧ pts = cycles.flatten := by
  obtain ⟨cycles, hcycles, hpts⟩ := Option.bind_eq_some_iff.mp h
  exact ⟨cycles, hcycles, (Option.some.inj hpts).symm⟩

theorem computeOverlay_realOf (h : computeOverlay daily = some pts) {p : OverlayPoint}
    (hp : p ∈ pts) : ∃ c ∈ cycleDays daily, RealOf c p := by
  obtain ⟨cycles, hcycles, rfl⟩ := computeOverlay_groups h
  obtain ⟨points, hpoints, hp⟩ := List.mem_flatten.mp hp
  obtain ⟨cycle, hcycle, hoverlay⟩ := exists_entry_of_mapM hcycles hpoints
  obtain ⟨hnumber, hobserved, c, hc, hdays, hclose⟩ := (overlayCycle_points hoverlay).2 p hp
  obtain ⟨hmem, hkey⟩ := key_of_mem_items hcycle hc
  exact ⟨c, hmem, hnumber.trans hkey.symm, hdays, hclose, hobserved⟩

/-- Every day that lies in a cycle has its point, and no other day has. -/
theorem computeOverlay_dayCloses (h : computeOverlay daily = some pts) :
    (pts.map OverlayPoint.dayClose).Perm (daily.filter inCycle) := by
  obtain ⟨cycles, hcycles, rfl⟩ := computeOverlay_groups h
  rw [flatMap_eq_of_mapM (fun cycle _ points hpoints => (overlayCycle_points hpoints).1) hcycles]
  have hsorted : ((groupBy (fun p => p.assignment.cycleNumber) (cycleDays daily)).flatMap
      fun cycle => (sortBy (fun c => c.assignment.daysSinceHalving) cycle.items).map
        fun c => DailyClose.mk c.date c.price).Perm
      ((groupBy (fun p => p.assignment.cycleNumber) (cycleDays daily)).flatMap
        fun cycle => cycle.items.map fun c => DailyClose.mk c.date c.price) := by
    apply List.Perm.flatMap_left
    intro cycle _
    exact (List.perm_insertionSort _ _).map _
  have hitems := (flatMap_items_groupBy (fun p => p.assignment.cycleNumber)
    (cycleDays daily)).map fun c => DailyClose.mk c.date c.price
  rw [List.map_flatMap] at hitems
  exact hsorted.trans (hitems.trans cycleDays_closes)

theorem RealOf.key_eq {c : CycleDay} {p : OverlayPoint} (h : RealOf c p) :
    p.key = c.assignment.key := by
  rw [OverlayPoint.key, h.cycleNumber, h.daysSinceHalving, CycleAssignment.key]

theorem RealOf.ts_eq {c : CycleDay} {p : OverlayPoint} (h : RealOf c p) : p.ts = c.date :=
  congrArg DailyClose.date h.dayClose

theorem computeOverlay_keyDate (h : computeOverlay daily = some pts) {p : OverlayPoint}
    (hp : p ∈ pts) : keyDate p.key = p.ts := by
  obtain ⟨c, hc, hreal⟩ := computeOverlay_realOf h hp
  rw [hreal.key_eq, hreal.ts_eq, keyDate_assignCycle (mem_cycleDays.mp hc).2]

theorem computeOverlay_key (h : computeOverlay daily = some pts) {p : OverlayPoint}
    (hp : p ∈ pts) : p.key = (assignCycleIn p.ts halvingDates).key := by
  obtain ⟨c, hc, hreal⟩ := computeOverlay_realOf h hp
  rw [hreal.key_eq, hreal.ts_eq, ← assignCycle_eq (mem_cycleDays.mp hc).2]

end Real

theorem keys_nodup_of_dates {pts : List OverlayPoint} (hkey : ∀ p ∈ pts, keyDate p.key = p.ts)
    (hdates : (pts.map OverlayPoint.ts).Nodup) : (pts.map OverlayPoint.key).Nodup := by
  have hmap : (pts.map OverlayPoint.key).map keyDate = pts.map OverlayPoint.ts := by
    rw [List.map_map]
    exact List.map_congr_left hkey
  exact List.Nodup.of_map keyDate (hmap ▸ hdates)

/-- The real points' keys differ exactly when the dates in a cycle do. -/
theorem computeOverlay_keys_nodup_iff {daily : List DailyClose} {pts : List OverlayPoint}
    (h : computeOverlay daily = some pts) :
    (pts.map OverlayPoint.key).Nodup ↔
      ((daily.filter inCycle).map DailyClose.date).Nodup := by
  have hdates : (pts.map OverlayPoint.ts).Perm ((daily.filter inCycle).map DailyClose.date) := by
    have hperm := (computeOverlay_dayCloses h).map DailyClose.date
    rwa [List.map_map] at hperm
  rw [← hdates.nodup_iff]
  constructor
  · intro hkeys
    have hmap : (pts.map OverlayPoint.ts).map (fun ts => (assignCycleIn ts halvingDates).key) =
        pts.map OverlayPoint.key := by
      rw [List.map_map]
      exact List.map_congr_left fun p hp => (computeOverlay_key h hp).symm
    exact List.Nodup.of_map _ (hmap ▸ hkeys)
  · exact keys_nodup_of_dates fun p hp => computeOverlay_keyDate h hp

/-- What a projection forward from `today` consists of. -/
structure ProjectsFrom (today : ℤ) (pts : List OverlayPoint) : Prop where
  dates : (pts.map OverlayPoint.ts).Nodup
  keyDate : ∀ p ∈ pts, keyDate p.key = p.ts
  after : ∀ p ∈ pts, today < p.ts
  projected : ∀ p ∈ pts, p.projected = true

section Projection

variable {realPoints pts : List OverlayPoint} {raw : List RawPoint}

theorem normalizeCycle_points {cycle : Group ℤ RawPoint}
    (h : normalizeCycle realPoints cycle = some pts) :
    pts.map OverlayPoint.ts = cycle.items.map RawPoint.ts ∧
      ∀ p ∈ pts, p.cycleNumber = cycle.key ∧ p.projected = true ∧
        ∃ r ∈ cycle.items, p.daysSinceHalving = r.assignment.daysSinceHalving ∧ p.ts = r.ts := by
  obtain ⟨anchor, -, hrest⟩ := Option.bind_eq_some_iff.mp h
  obtain ⟨low, -, hmap⟩ := Option.bind_eq_some_iff.mp hrest
  constructor
  · apply map_eq_of_mapM _ hmap
    intro r _ p hp
    obtain ⟨n, -, hp⟩ := Option.bind_eq_some_iff.mp hp
    obtain ⟨m, -, hp⟩ := Option.bind_eq_some_iff.mp hp
    cases hp
    rfl
  · intro p hp
    obtain ⟨r, hr, hp⟩ := exists_entry_of_mapM hmap hp
    obtain ⟨n, -, hp⟩ := Option.bind_eq_some_iff.mp hp
    obtain ⟨m, -, hp⟩ := Option.bind_eq_some_iff.mp hp
    cases hp
    exact ⟨rfl, rfl, r, hr, rfl, rfl⟩

/-- Normalizing keeps the days and their cycles. -/
theorem normalizeProjection_points (h : normalizeProjection realPoints raw = some pts) :
    (pts.map OverlayPoint.ts).Perm (raw.map RawPoint.ts) ∧
      ∀ p ∈ pts, p.projected = true ∧ ∃ r ∈ raw, p.key = r.assignment.key ∧ p.ts = r.ts := by
  obtain ⟨cycles, hcycles, hpts⟩ := Option.bind_eq_some_iff.mp h
  obtain rfl : cycles.flatten = pts := Option.some.inj hpts
  constructor
  · rw [flatMap_eq_of_mapM (fun cycle _ points hpoints => (normalizeCycle_points hpoints).1)
      hcycles, ← List.map_flatMap]
    exact (flatMap_items_groupBy _ _).map _
  · intro p hp
    obtain ⟨points, hpoints, hp⟩ := List.mem_flatten.mp hp
    obtain ⟨cycle, hcycle, hnormal⟩ := exists_entry_of_mapM hcycles hpoints
    obtain ⟨hnumber, hprojected, r, hr, hdays, hts⟩ := (normalizeCycle_points hnormal).2 p hp
    obtain ⟨hmem, hkey⟩ := key_of_mem_items hcycle hr
    refine ⟨hprojected, r, hmem, ?_, hts⟩
    rw [OverlayPoint.key, CycleAssignment.key, hnumber, hdays, hkey]

theorem horizon_nodup : horizon.Nodup := by
  have hinj : Function.Injective fun k : ℕ => (k : ℤ) + 1 := by
    intro i j hij
    simpa using hij
  exact List.nodup_range.map hinj

theorem horizon_pos {k : ℤ} (hk : k ∈ horizon) : 0 < k := by
  obtain ⟨i, -, rfl⟩ := List.mem_map.mp hk
  positivity

/-- Days `today + k` for different offsets of the horizon, each in its cycle of the
projected halvings, make a projection. -/
theorem projectsFrom_of_raw {today : ℤ} {offsets : List ℤ} (hsub : offsets.Sublist horizon)
    (hts : raw.map RawPoint.ts = offsets.map fun k => today + k)
    (hassign : ∀ r ∈ raw, r.assignment = assignCycleIn r.ts projectedHalvingDates)
    (h : normalizeProjection realPoints raw = some pts) : ProjectsFrom today pts := by
  obtain ⟨hperm, hpoints⟩ := normalizeProjection_points h
  constructor
  · rw [hperm.nodup_iff, hts]
    exact (hsub.nodup horizon_nodup).map (add_right_injective today)
  · intro p hp
    obtain ⟨-, r, hr, hkey, hdate⟩ := hpoints p hp
    rw [hkey, hassign r hr, keyDate_assignCycleIn, hdate]
  · intro p hp
    obtain ⟨-, r, hr, -, hdate⟩ := hpoints p hp
    have hmem : r.ts ∈ raw.map RawPoint.ts := List.mem_map_of_mem hr
    rw [hts] at hmem
    obtain ⟨k, hk, hsum⟩ := List.mem_map.mp hmem
    have hpos := horizon_pos (hsub.subset hk)
    omega
  · intro p hp
    exact (hpoints p hp).1

end Projection
section Series

variable {daily daily' : List DailyClose} {realPoints pts : List OverlayPoint}

theorem collectSeries_date {g : Group ℤ DailyClose} (hg : g ∈ groupBy DailyClose.date daily) :
    g.last.date = g.key := (key_of_mem_items hg g.last_mem).2

theorem collectSeries_ascending (daily : List DailyClose) :
    Ascending DailyClose.date (collectSeries daily) := by
  unfold Ascending collectSeries
  rw [List.pairwise_map]
  apply List.Pairwise.imp_of_mem _ (groupBy_ascending DailyClose.date daily)
  intro g g' hg hg' hlt
  rwa [collectSeries_date hg, collectSeries_date hg']

theorem exists_date_collectSeries {d : DailyClose} (hd : d ∈ daily) :
    ∃ d' ∈ collectSeries daily, d'.date = d.date := by
  have hitem : d ∈ (groupBy DailyClose.date daily).flatMap Group.items :=
    (flatMap_items_groupBy DailyClose.date daily).mem_iff.mpr hd
  obtain ⟨g, hg, hdg⟩ := List.mem_flatMap.mp hitem
  refine ⟨g.last, List.mem_map_of_mem hg, ?_⟩
  rw [collectSeries_date hg, (key_of_mem_items hg hdg).2]

theorem mem_of_mem_collectSeries {d : DailyClose} (hd : d ∈ collectSeries daily) : d ∈ daily := by
  obtain ⟨g, hg, rfl⟩ := List.mem_map.mp hd
  exact (key_of_mem_items hg g.last_mem).1

theorem le_last_date {today : DailyClose} (h : (collectSeries daily).getLast? = some today) :
    ∀ d ∈ daily, d.date ≤ today.date := by
  intro d hd
  obtain ⟨d', hd', hdate⟩ := exists_date_collectSeries hd
  rw [← hdate]
  exact (collectSeries_ascending daily).le_getLast hd' h

theorem collectSeries_eq_sortBy (h : (daily.map DailyClose.date).Nodup) :
    collectSeries daily = sortBy DailyClose.date daily := by
  apply (collectSeries_ascending daily).ext (sortBy_ascending _ h)
  intro d
  rw [mem_sortBy]
  constructor
  · exact mem_of_mem_collectSeries
  · intro hd
    obtain ⟨d', hd', hdate⟩ := exists_date_collectSeries hd
    rwa [← List.inj_on_of_nodup_map h (mem_of_mem_collectSeries hd') hd hdate]

theorem sortBy_date_eq_of_perm (h : (daily.map DailyClose.date).Nodup)
    (hperm : daily.Perm daily') : sortBy DailyClose.date daily = sortBy DailyClose.date daily' := by
  have h' : (daily'.map DailyClose.date).Nodup := (hperm.map _).nodup_iff.mp h
  apply (sortBy_ascending _ h).ext (sortBy_ascending _ h')
  intro d
  rw [mem_sortBy, mem_sortBy]
  exact hperm.mem_iff

theorem collectSeries_eq_of_perm (h : (daily.map DailyClose.date).Nodup)
    (hperm : daily.Perm daily') : collectSeries daily = collectSeries daily' := by
  rw [collectSeries_eq_sortBy h, collectSeries_eq_sortBy ((hperm.map _).nodup_iff.mp h),
    sortBy_date_eq_of_perm h hperm]

/-- The points of a projection come after every day of the series. -/
def Projects (daily : List DailyClose) (pts : List OverlayPoint) : Prop :=
  pts = [] ∨ ∃ today, (∀ d ∈ daily, d.date ≤ today) ∧ ProjectsFrom today pts

theorem replayRefs_sublist (series : List DailyClose) (baseDate : ℤ) :
    ((replayRefs series baseDate).map Prod.fst).Sublist horizon :=
  fst_filterMap_sublist (fun k => priceAtOrBefore series (baseDate + k)) horizon

theorem replayDay_eq {today : DailyClose} {basePrice refPrice : ℚ} {k : ℤ} {r : RawPoint}
    (h : replayDay today basePrice k refPrice = some r) :
    r.ts = today.date + k ∧ r.assignment = assignCycleIn r.ts projectedHalvingDates := by
  obtain ⟨price, -, hr⟩ := Option.bind_eq_some_iff.mp h
  cases hr
  exact ⟨rfl, rfl⟩

theorem compositeDay_eq {math : DecimalMath} {model : FittedModel} {grid : List BandOffset}
    {today k : ℤ} {g0 : ℚ} {r : RawPoint} (h : compositeDay math model grid today g0 k = some r) :
    r.ts = today + k ∧ r.assignment = assignCycleIn r.ts model.halvings := by
  obtain ⟨spine, -, h⟩ := Option.bind_eq_some_iff.mp h
  obtain ⟨component, -, h⟩ := Option.bind_eq_some_iff.mp h
  obtain ⟨offsets, -, h⟩ := Option.bind_eq_some_iff.mp h
  obtain ⟨p50, -, h⟩ := Option.bind_eq_some_iff.mp h
  obtain ⟨p10, -, h⟩ := Option.bind_eq_some_iff.mp h
  obtain ⟨p90, -, h⟩ := Option.bind_eq_some_iff.mp h
  cases h
  exact ⟨rfl, rfl⟩

theorem projectCycleRepeat_projects (h : projectCycleRepeat daily realPoints = some pts) :
    Projects daily pts := by
  unfold projectCycleRepeat at h
  dsimp only at h
  split at h
  · next today htoday =>
    split at h
    · split_ifs at h
      · exact Or.inl (Option.some.inj h).symm
      · split at h
        · obtain ⟨raw, hraw, hnormal⟩ := Option.bind_eq_some_iff.mp h
          refine Or.inr ⟨today.date, le_last_date htoday, ?_⟩
          have hts := map_eq_of_mapM (fun ref _ r hr => (replayDay_eq hr).1) hraw
          refine projectsFrom_of_raw (replayRefs_sublist (collectSeries daily)
            (today.date - cycleLengthDays)) ?_ ?_ hnormal
          · rw [hts, List.map_map]
            rfl
          · intro r hr
            obtain ⟨ref, -, href⟩ := exists_entry_of_mapM hraw hr
            exact (replayDay_eq href).2
        · exact Or.inl (Option.some.inj h).symm
    · exact Or.inl (Option.some.inj h).symm
  · exact Or.inl (Option.some.inj h).symm

/-- A fitted model scales its curves by their greatest values. -/
theorem fitModel_eq {math : DecimalMath} {useBtcAnchors : Bool} {model : FittedModel}
    (h : fitModel math daily useBtcAnchors = some (some model)) :
    ∃ spineA spineB curves rho, model = ⟨spineA, spineB, curves,
      curves.map fun c => (c.1, ((c.2.map Prod.snd).max?).getD 0), projectedHalvingDates, rho⟩ := by
  unfold fitModel at h
  split at h
  · obtain ⟨own, -, h⟩ := Option.bind_eq_some_iff.mp h
    obtain ⟨anchored, -, h⟩ := Option.bind_eq_some_iff.mp h
    split at h
    · obtain ⟨residuals, -, h⟩ := Option.bind_eq_some_iff.mp h
      obtain ⟨rho, -, h⟩ := Option.bind_eq_some_iff.mp h
      cases h
      exact ⟨_, _, _, _, rfl⟩
    · cases h
  · cases h

theorem fitModel_halvings {math : DecimalMath} {useBtcAnchors : Bool} {model : FittedModel}
    (h : fitModel math daily useBtcAnchors = some (some model)) :
    model.halvings = projectedHalvingDates := by
  obtain ⟨spineA, spineB, curves, rho, rfl⟩ := fitModel_eq h
  rfl

/-- The composite projection is empty or normalizes the days of a fitted path. -/
theorem projectComposite_cases {math : DecimalMath} {useBtcAnchors : Bool}
    (h : projectComposite math daily realPoints useBtcAnchors = some pts) :
    pts = [] ∨ ∃ today fitSeries model bands g0 raw,
      (collectSeries daily).getLast? = some today ∧
        fitModel math fitSeries useBtcAnchors = some (some model) ∧
        buildBandGrid math model fitSeries = some bands ∧
        horizon.mapM (compositeDay math model bands today.date g0) = some raw ∧
        normalizeProjection realPoints raw = some pts := by
  unfold projectComposite at h
  dsimp only at h
  split at h
  · next today htoday =>
    split at h
    · split_ifs at h
      · exact Or.inl (Option.some.inj h).symm
      · exact Or.inl (Option.some.inj h).symm
      · obtain ⟨fitted, hfitted, h⟩ := Option.bind_eq_some_iff.mp h
        split at h
        · next model =>
          obtain ⟨bands, hbands, h⟩ := Option.bind_eq_some_iff.mp h
          obtain ⟨rToday, -, h⟩ := Option.bind_eq_some_iff.mp h
          obtain ⟨component, -, h⟩ := Option.bind_eq_some_iff.mp h
          obtain ⟨raw, hraw, hnormal⟩ := Option.bind_eq_some_iff.mp h
          exact Or.inr ⟨today, _, model, bands, _, raw, htoday, hfitted, hbands, hraw, hnormal⟩
        · exact Or.inl (Option.some.inj h).symm
    · exact Or.inl (Option.some.inj h).symm
  · exact Or.inl (Option.some.inj h).symm

theorem projectComposite_projects {math : DecimalMath} {useBtcAnchors : Bool}
    (h : projectComposite math daily realPoints useBtcAnchors = some pts) :
    Projects daily pts := by
  rcases projectComposite_cases h with
    rfl | ⟨today, fitSeries, model, bands, g0, raw, htoday, hfitted, -, hraw, hnormal⟩
  · exact Or.inl rfl
  · refine Or.inr ⟨today.date, le_last_date htoday, ?_⟩
    refine projectsFrom_of_raw (List.Sublist.refl horizon) ?_ ?_ hnormal
    · exact map_eq_of_mapM (fun k _ r hr => (compositeDay_eq hr).1) hraw
    · intro r hr
      obtain ⟨k, -, hk⟩ := exists_entry_of_mapM hraw hr
      rw [(compositeDay_eq hk).2, fitModel_halvings hfitted]

theorem Projects.keys_nodup (h : Projects daily pts) : (pts.map OverlayPoint.key).Nodup := by
  rcases h with rfl | ⟨today, -, hfrom⟩
  · exact List.nodup_nil
  · exact keys_nodup_of_dates hfrom.keyDate hfrom.dates

/-- No projected point has the key of a real one. -/
theorem Projects.key_ne (h : Projects daily pts) (hreal : computeOverlay daily = some realPoints)
    {p q : OverlayPoint} (hp : p ∈ realPoints) (hq : q ∈ pts) : p.key ≠ q.key := by
  rcases h with rfl | ⟨today, hlast, hfrom⟩
  · cases hq
  · intro heq
    have hdate : p.ts = q.ts := by
      rw [← computeOverlay_keyDate hreal hp, heq, hfrom.keyDate q hq]
    obtain ⟨c, hc, hof⟩ := computeOverlay_realOf hreal hp
    have hle := hlast _ (mem_cycleDays.mp hc).1
    have hafter := hfrom.after q hq
    rw [← hdate, hof.ts_eq] at hafter
    exact absurd hle (not_le.mpr hafter)

end Series

end CryptoCollector.Collectors
